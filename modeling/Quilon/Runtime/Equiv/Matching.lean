import Quilon.Library.GraphemeCuts
import Quilon.Runtime.Equiv.Indexing

/-!
# Matches and the clusters they fall on

`split`, `replaceAll`, `replace` and `indexOf` look for the characters of the needle, wherever they stand.
A match begins and ends between clusters exactly if no rule joins it to what stands around it
(`matches_keep_clusters`); `match_within_cluster` is one that takes the letter out of an accented one.
-/

namespace Quilon.Text

open Utf8

/-- Where the leftmost occurrences begin that do not overlap, at most `limit` of them; `text` begins at
`offset`. -/
def occurrences (needle : List Char) : Nat → Nat → List Char → List Nat
  | 0, _, _ => []
  | limit + 1, offset, text =>
    match firstIndexOf needle text with
    | none => []
    | some i =>
      (offset + i) ::
        occurrences needle limit (offset + i + needle.length) (text.drop (i + needle.length))

/-- The pieces between occurrences of that width. -/
def piecesBetween (width : Nat) : List Nat → Nat → List Char → List (List Char)
  | [], _, text => [text]
  | o :: rest, offset, text =>
    text.take (o - offset) :: piecesBetween width rest (o + width) (text.drop (o - offset + width))

inductive Matching where
  | split
  | replaceAll
  | replace (count : Truncated)
  | find (start : Int)

namespace Matching

variable (unicode : Unicode)

/-- The occurrences acted on. -/
def occurrences (hay needle : List Char) : Matching → List Nat
  | split | replaceAll => Text.occurrences needle hay.length 0 hay
  | replace (.whole n) =>
    if 1 ≤ n ∧ n ≤ (Text.occurrences needle hay.length 0 hay).length then
      Text.occurrences needle n.toNat 0 hay
    else []
  | replace _ => []
  | find start =>
    let pieces := graphemesOf unicode hay
    let front := (pieces.take (clamp start pieces.length)).flatten
    Text.occurrences needle 1 front.length (hay.drop front.length)

/-- Each operation acts on these occurrences: what it answers is made of the pieces between them, or of
what stands before the first. -/
def ActsOn (hay needle replacement : QnSlice) (found : List Nat) : Matching → Prop
  | split =>
    textSplit unicode hay needle =
      textArray unicode (piecesBetween (textStr needle).length found 0 (textStr hay))
  | replaceAll =>
    textReplaceAll unicode hay needle replacement =
      .ok (allocText unicode (encode ((textStr replacement).intercalate
        (piecesBetween (textStr needle).length found 0 (textStr hay)))))
  | replace count =>
    ∀ result, textReplace unicode hay needle replacement count = .ok result →
      result = allocText unicode (encode ((textStr replacement).intercalate
        (piecesBetween (textStr needle).length found 0 (textStr hay))))
  | find start =>
    textFindFrom unicode hay needle start =
      some ((found.head?.map fun o => countOf unicode ((textStr hay).take o)).getD (-1))

end Matching

section

variable (unicode : Unicode) (hay needle : QnSlice)

/-- The occurrence at `o` begins and ends between clusters, and is the slice of as many clusters as the
needle has. -/
def CutsOut (o : Nat) : Prop :=
  IsCut unicode.classOf (textStr hay) o ∧
    IsCut unicode.classOf (textStr hay) (o + (textStr needle).length) ∧
      (textSlice unicode hay (countOf unicode ((textStr hay).take o))
        (countOf unicode ((textStr hay).take o) + (textHeaderOf needle).count)).content =
          needle.content

/-- Split and joined again, the text is what it was, with the same clusters. -/
def Rejoins : Prop :=
  (textJoin unicode (textSplit unicode hay needle) needle).content = hay.content ∧
    (textHeaderOf (textJoin unicode (textSplit unicode hay needle) needle)).count =
      (textHeaderOf hay).count ∧
    (((textSplit unicode hay needle).map (textGraphemes unicode)).intersperse
      (textGraphemes unicode needle)).flatten = textGraphemes unicode hay

/-- No match cuts a cluster. -/
def Matching.KeepsClusters (op : Matching) : Prop :=
  (∀ o ∈ op.occurrences unicode (textStr hay) (textStr needle), CutsOut unicode hay needle o) ∧
    match op with
    | .split => Rejoins unicode hay needle
    | _ => True

/-- No rule joins the needle at `o` to what stands before it, and none what stands behind to the
needle. -/
def StandsApart (text needle : List Char) (o : Nat) : Prop :=
  Apart unicode.classOf (text.take o) (text.drop o) ∧
    Apart unicode.classOf (text.take (o + needle.length)) (text.drop (o + needle.length))

end

variable {unicode : Unicode} {hay needle : QnSlice} {text front sought : List Char}

/-! ### Occurrences -/

theorem strFind_eq (h : sought ≠ []) (text : List Char) : strFind text sought = firstIndexOf sought text :=
  if_neg h

/-- The pieces `str::split` makes. -/
theorem splitOn_eq_piecesBetween (sought : List Char) (limit offset : Nat) (text : List Char) :
    splitOn sought limit text =
      piecesBetween sought.length (occurrences sought limit offset text) offset text := by
  induction limit generalizing offset text with
  | zero => rfl
  | succ limit ih =>
    rw [splitOn, occurrences]
    cases firstIndexOf sought text with
    | none => rfl
    | some i =>
      have hback : offset + i - offset = i := Nat.add_sub_cancel_left offset i
      show text.take i :: splitOn sought limit (text.drop (i + sought.length)) =
        text.take (offset + i - offset) ::
          piecesBetween sought.length _ (offset + i + sought.length)
            (text.drop (offset + i - offset + sought.length))
      rw [hback, ← ih]

theorem length_splitOn (sought : List Char) (limit offset : Nat) (text : List Char) :
    (splitOn sought limit text).length = (occurrences sought limit offset text).length + 1 := by
  induction limit generalizing offset text with
  | zero => rfl
  | succ limit ih =>
    rw [splitOn, occurrences]
    cases firstIndexOf sought text with
    | none => rfl
    | some i => exact congrArg (· + 1) (ih (offset + i + sought.length) _)

/-- The needle stands at each occurrence. -/
theorem prefix_of_mem_occurrences (hne : sought ≠ []) {limit o : Nat}
    (ho : o ∈ occurrences sought limit front.length text) :
    front.length ≤ o ∧ sought <+: (front ++ text).drop o := by
  induction limit generalizing front text with
  | zero => cases ho
  | succ limit ih =>
    rw [occurrences] at ho
    cases hfound : firstIndexOf sought text with
    | none =>
      rw [hfound] at ho
      cases ho
    | some i =>
      rw [hfound] at ho
      have hprefix := ((firstIndexOf_eq_some_iff hne).mp hfound).1
      have hend := add_length_le_of_prefix_drop hprefix hne
      rcases List.mem_cons.mp ho with rfl | ho
      · rw [List.drop_length_add_append]
        exact ⟨Nat.le_add_right _ _, hprefix⟩
      · have hlength : (front ++ text.take (i + sought.length)).length =
            front.length + i + sought.length := by
          rw [List.length_append, List.length_take, Nat.min_eq_left hend, Nat.add_assoc]
        rw [← hlength] at ho
        obtain ⟨hle, hbehind⟩ := ih ho
        rw [List.append_assoc, List.take_append_drop] at hbehind
        exact ⟨by omega, hbehind⟩

theorem drop_at_match {o : Nat} (h : sought <+: text.drop o) :
    text.drop o = sought ++ text.drop (o + sought.length) := by
  obtain ⟨back, hback⟩ := h
  rw [← List.drop_drop, ← hback, List.drop_left]

theorem Matching.prefix_of_mem_occurrences (hne : sought ≠ []) (op : Matching) {o : Nat}
    (ho : o ∈ op.occurrences unicode text sought) : sought <+: text.drop o := by
  have hall {limit : Nat} (ho : o ∈ Text.occurrences sought limit ([] : List Char).length text) :
      sought <+: text.drop o := (Text.prefix_of_mem_occurrences hne ho).2
  cases op with
  | split => exact hall ho
  | replaceAll => exact hall ho
  | replace count =>
    cases count with
    | nan => cases ho
    | infinite => cases ho
    | whole n =>
      have hacts : o ∈ if 1 ≤ n ∧ n ≤ (Text.occurrences sought text.length 0 text).length then
          Text.occurrences sought n.toNat 0 text else [] := ho
      split at hacts
      · exact hall hacts
      · cases hacts
  | find start =>
    have hbehind := (Text.prefix_of_mem_occurrences hne ho).2
    have hfront : (((graphemesOf unicode text).take
        (clamp start (graphemesOf unicode text).length)).flatten) <+: text := by
      conv => rhs; rw [← flatten_graphemes unicode.classOf text]
      exact (List.take_prefix _ _).flatten
    rwa [List.prefix_iff_eq_append.mp hfront] at hbehind

/-! ### What the operations act on -/

theorem Matching.actsOn_occurrences (hhay : WellFormed unicode hay) (hne : textStr needle ≠ [])
    (replacement : QnSlice) (op : Matching) :
    op.ActsOn unicode hay needle replacement
      (op.occurrences unicode (textStr hay) (textStr needle)) := by
  cases op with
  | split =>
    show textSplit unicode hay needle = _
    unfold textSplit
    rw [if_neg hne]
    exact congrArg (textArray unicode) (splitOn_eq_piecesBetween _ _ 0 _)
  | replaceAll =>
    show textReplaceAll unicode hay needle replacement = _
    unfold textReplaceAll replaceEach replaceN
    rw [if_neg hne, splitOn_eq_piecesBetween _ _ 0 _]
    rfl
  | replace count =>
    intro result hresult
    unfold textReplace replaceText at hresult
    rw [if_neg hne] at hresult
    cases count with
    | nan => cases hresult
    | infinite negative => cases negative <;> cases hresult
    | whole n =>
      rw [length_splitOn (textStr needle) (textStr hay).length 0 (textStr hay),
        Nat.add_sub_cancel] at hresult
      dsimp only at hresult
      by_cases hone : n < 1
      · rw [if_pos hone] at hresult
        cases hresult
      · rw [if_neg hone] at hresult
        by_cases hfew : 
            ((Text.occurrences (textStr needle) (textStr hay).length 0 (textStr hay)).length : Int) < n
        · rw [if_pos hfew] at hresult
          cases hresult
        · rw [if_neg hfew] at hresult
          have hacts : 1 ≤ n ∧
              n ≤ (Text.occurrences (textStr needle) (textStr hay).length 0 (textStr hay)).length := by
            omega
          have hmade := Except.ok.inj hresult
          have hfound : Matching.occurrences unicode (textStr hay) (textStr needle)
              (.replace (.whole n)) = Text.occurrences (textStr needle) n.toNat 0 (textStr hay) :=
            if_pos hacts
          rw [hfound, ← splitOn_eq_piecesBetween]
          exact hmade.symm
  | find start =>
    show textFindFrom unicode hay needle start = _
    rw [textFindFrom_eq hhay]
    unfold foundBehind Matching.occurrences
    dsimp only
    unfold Text.occurrences
    generalize clamp start (graphemesOf unicode (textStr hay)).length = k
    have htext : textStr hay = ((graphemesOf unicode (textStr hay)).take k).flatten ++
        ((graphemesOf unicode (textStr hay)).drop k).flatten := by
      rw [← List.flatten_append, List.take_append_drop]
      exact (flatten_graphemes unicode.classOf _).symm
    generalize ((graphemesOf unicode (textStr hay)).take k).flatten = front at htext ⊢
    generalize ((graphemesOf unicode (textStr hay)).drop k).flatten = rest at htext ⊢
    rw [strFind_eq hne, htext, List.drop_left]
    cases firstIndexOf (textStr needle) rest with
    | none => rfl
    | some characters =>
      show some (countOf unicode (front ++ rest.take characters)) =
        some (countOf unicode ((front ++ rest).take (front.length + characters)))
      rw [List.take_length_add_append]

/-! ### Matches cut out of the text -/

theorem valid_iff_encode_textStr {slice : QnSlice} :
    (decode? slice.content).isSome ↔ encode (textStr slice) = slice.content := by
  rw [textStr_eq]
  exact isSome_decode?_iff_encode_lossy

theorem split_at_match {o : Nat} (h : sought <+: text.drop o) (hne : sought ≠ []) :
    text = text.take o ++ sought ++ text.drop (o + sought.length) ∧ (text.take o).length = o := by
  have hend := add_length_le_of_prefix_drop h hne
  rw [List.append_assoc, ← drop_at_match h, List.take_append_drop, List.length_take]
  exact ⟨rfl, by omega⟩

theorem take_behind_match {o : Nat} (h : sought <+: text.drop o) (hne : sought ≠ []) :
    text.take (o + sought.length) = text.take o ++ sought := by
  obtain ⟨htext, hlength⟩ := split_at_match h hne
  conv => lhs; rw [htext]
  have hboth : o + sought.length = (text.take o ++ sought).length := by
    rw [List.length_append, hlength]
  rw [hboth, List.take_left]

theorem isCut_iff_apart {k : Nat} (hk : k ≤ text.length) :
    IsCut unicode.classOf text k ↔ Apart unicode.classOf (text.take k) (text.drop k) := by
  have hcut : IsCut unicode.classOf (text.take k ++ text.drop k) (text.take k).length ↔
      Apart unicode.classOf (text.take k) (text.drop k) := isCut_append_iff
  rwa [List.take_append_drop, List.length_take, Nat.min_eq_left hk] at hcut

/-- The slice of as many clusters as the needle has, behind those before a match that stands apart. -/
theorem content_slice_of_match (hhay : WellFormed unicode hay) (hneedle : WellFormed unicode needle)
    (hne : textStr needle ≠ []) {o : Nat} (hmatch : textStr needle <+: (textStr hay).drop o)
    (hapart : StandsApart unicode (textStr hay) (textStr needle) o) :
    (textSlice unicode hay (countOf unicode ((textStr hay).take o))
      (countOf unicode ((textStr hay).take o) + (textHeaderOf needle).count)).content =
        encode (textStr needle) := by
  obtain ⟨htext, -⟩ := split_at_match hmatch hne
  obtain ⟨hfront, hback⟩ := hapart
  rw [take_behind_match hmatch hne] at hback
  rw [drop_at_match hmatch] at hfront
  have hpieces := graphemes_of_apart hfront hback
  rw [← htext] at hpieces
  have hcount : (textHeaderOf needle).count = (graphemesOf unicode (textStr needle)).length := by
    rw [hneedle.count, textStr_eq]
    rfl
  rw [content_textSlice hhay, hcount]
  unfold countOf graphemesOf
  rw [hpieces]
  generalize graphemes unicode.classOf ((textStr hay).take o) = before
  generalize hmiddle : graphemes unicode.classOf (textStr needle) = middle
  generalize graphemes unicode.classOf ((textStr hay).drop (o + (textStr needle).length)) = behind
  have hlo : clamp before.length (before ++ middle ++ behind).length = before.length := by
    unfold clamp
    rw [List.length_append, List.length_append]
    omega
  have hhi : clamp ((before.length : Int) + middle.length) (before ++ middle ++ behind).length =
      (before ++ middle).length := by
    unfold clamp
    rw [List.length_append, List.length_append]
    omega
  rw [hlo, hhi, List.take_left, List.drop_left, ← hmiddle]
  exact congrArg encode (flatten_graphemes unicode.classOf _)

/-- A match is cut out of the text exactly if it stands apart there and the needle is valid UTF-8. -/
theorem cutsOut_iff (hhay : WellFormed unicode hay) (hneedle : WellFormed unicode needle)
    (hne : textStr needle ≠ []) {o : Nat} (hmatch : textStr needle <+: (textStr hay).drop o) :
    CutsOut unicode hay needle o ↔
      (decode? needle.content).isSome ∧ StandsApart unicode (textStr hay) (textStr needle) o := by
  have hend := add_length_le_of_prefix_drop hmatch hne
  have hfront : IsCut unicode.classOf (textStr hay) o ↔ _ := isCut_iff_apart (by omega)
  have hback : IsCut unicode.classOf (textStr hay) (o + (textStr needle).length) ↔ _ :=
    isCut_iff_apart hend
  constructor
  · rintro ⟨hbegin, hbehind, hslice⟩
    have hapart : StandsApart unicode (textStr hay) (textStr needle) o :=
      ⟨hfront.mp hbegin, hback.mp hbehind⟩
    rw [content_slice_of_match hhay hneedle hne hmatch hapart] at hslice
    exact ⟨valid_iff_encode_textStr.mpr hslice, hapart⟩
  · rintro ⟨hvalid, hapart⟩
    refine ⟨hfront.mpr hapart.1, hback.mpr hapart.2, ?_⟩
    rw [content_slice_of_match hhay hneedle hne hmatch hapart]
    exact valid_iff_encode_textStr.mp hvalid

/-! ### Splitting and joining -/

theorem splitOn_ne_nil (sought : List Char) (limit : Nat) (text : List Char) :
    splitOn sought limit text ≠ [] := by
  cases limit with
  | zero => exact List.cons_ne_nil _ _
  | succ limit =>
    rw [splitOn]
    cases firstIndexOf sought text with
    | none => exact List.cons_ne_nil _ _
    | some i => exact List.cons_ne_nil _ _

theorem intersperse_of_ne_nil {α : Type*} {a separator : α} {rest : List α} (hne : rest ≠ []) :
    (a :: rest).intersperse separator = a :: separator :: rest.intersperse separator := by
  obtain ⟨b, rest, rfl⟩ := List.exists_cons_of_ne_nil hne
  exact List.intersperse_cons_cons

theorem map_intersperse {α β : Type*} (f : α → β) (separator : α) (parts : List α) :
    (parts.intersperse separator).map f = (parts.map f).intersperse (f separator) := by
  induction parts with
  | nil => rfl
  | cons part parts ih =>
    by_cases hne : parts = []
    · subst hne
      rfl
    · rw [intersperse_of_ne_nil hne, List.map_cons, List.map_cons, ih, List.map_cons,
        intersperse_of_ne_nil (by simpa using hne)]

/-- Split at matches that stand apart, a text has no rule to join its pieces and the needles between
them. -/
theorem seamless_splitOn (hne : sought ≠ []) {limit : Nat} (hbefore : Apart unicode.classOf front text)
    (hapart : ∀ o ∈ occurrences sought limit front.length text,
      StandsApart unicode (front ++ text) sought o) :
    Seamless unicode.classOf front ((splitOn sought limit text).intersperse sought) ∧
      ((splitOn sought limit text).intersperse sought).flatten = text := by
  have hwhole : Seamless unicode.classOf front [text] ∧ [text].flatten = text :=
    ⟨⟨fun _ => hbefore, trivial⟩, List.flatten_singleton⟩
  induction limit generalizing front text with
  | zero => exact hwhole
  | succ limit ih =>
    rw [splitOn]
    rw [occurrences] at hapart
    cases hfound : firstIndexOf sought text with
    | none => exact hwhole
    | some i =>
      rw [hfound] at hapart
      have hprefix := ((firstIndexOf_eq_some_iff hne).mp hfound).1
      have htext := drop_at_match hprefix
      have hend := add_length_le_of_prefix_drop hprefix hne
      have hfront : (front ++ text.take i ++ sought).length = front.length + i + sought.length := by
        rw [List.length_append, List.length_append, List.length_take, Nat.min_eq_left (by omega)]
      have hall : front ++ text.take i ++ sought ++ text.drop (i + sought.length) = front ++ text := by
        rw [List.append_assoc, ← htext, List.append_assoc, List.take_append_drop]
      -- the match found, between the piece before it and the rest
      obtain ⟨hbegin, hbehind⟩ := hapart (front.length + i) List.mem_cons_self
      rw [List.take_length_add_append, List.drop_length_add_append, htext, apart_append hne] at hbegin
      rw [← hfront, ← hall, List.take_left, List.drop_left] at hbehind
      have hpiece : text.take i ≠ [] → Apart unicode.classOf front (text.take i) := by
        intro hpiece
        rw [← List.take_append_drop i text] at hbefore
        exact (apart_append hpiece).mp hbefore
      have hrest := ih hbehind
        (by
          intro o ho
          rw [hall]
          apply hapart o
          rw [hfront] at ho
          exact List.mem_cons_of_mem _ ho)
        ⟨⟨fun _ => hbehind, trivial⟩, List.flatten_singleton⟩
      show Seamless unicode.classOf front ((text.take i :: _).intersperse sought) ∧ _
      rw [intersperse_of_ne_nil (splitOn_ne_nil _ _ _), List.flatten_cons, List.flatten_cons, hrest.2,
        ← htext, List.take_append_drop]
      exact ⟨⟨hpiece, fun _ => hbegin, hrest.1⟩, rfl⟩

/-- Where no rule joins, counting from the seams is right. -/
theorem seamsKept_of_seamless {texts : List (List Char)} (hne : ∀ text ∈ texts, text ≠ [])
    (h : Seamless unicode.classOf front texts) (ascii : Bool) : SeamsKept unicode ascii front texts := by
  induction texts generalizing front with
  | nil => exact trivial
  | cons text texts ih =>
    have htext := hne text List.mem_cons_self
    obtain ⟨c, rest, rfl⟩ := List.exists_cons_of_ne_nil htext
    have hapart : joins (after unicode.classOf [] front) (unicode.classOf c) = false :=
      h.1 htext c rfl
    have hrest := ih (fun t ht => hne t (List.mem_cons_of_mem _ ht)) h.2
    refine ⟨?_, fun _ hcrlf => ?_, fun _ hjoins => ?_, hrest⟩
    · obtain ⟨own, others, -, hhead, hown, -⟩ := head?_graphemes unicode.classOf c rest
      rw [← startsFrom_seam_iff hhead, startsFrom_cons_of_not_joins hapart,
        startsFrom_cons_of_not_joins hapart, startsFrom_congr (context_of_not_joins hapart),
        startsFrom_congr (context_of_not_joins hapart), hown]
      have halone : joins [] (unicode.classOf c) = false := rfl
      rw [startsFrom_cons_of_not_joins halone]
    · -- a line feed joins a carriage return
      obtain ⟨hcr, hlf⟩ := hcrlf
      obtain rfl : c = '\n' := Option.some.inj hlf
      have hhead := head?_after unicode [] hcr
      rw [(unicode.classOf_cr '\r').mpr rfl] at hhead
      obtain ⟨before, hbefore⟩ : ∃ before, after unicode.classOf [] front = .cr :: before := by
        cases hafter : after unicode.classOf [] front with
        | nil =>
          rw [hafter] at hhead
          cases hhead
        | cons last before =>
          rw [hafter] at hhead
          exact ⟨before, by rw [Option.some.inj hhead]⟩
      rw [hbefore, (unicode.classOf_lf '\n').mpr rfl] at hapart
      cases hapart
    · exact absurd (hapart.symm.trans hjoins) Bool.false_ne_true

/-- Split at matches that stand apart, and joined again, a text is what it was. -/
theorem rejoins_of_standsApart (hhay : WellFormed unicode hay) (hneedle : WellFormed unicode needle)
    (hvalid : (decode? hay.content).isSome) (hne : textStr needle ≠ [])
    (hapart : ∀ o ∈ occurrences (textStr needle) (textStr hay).length 0 (textStr hay),
      (decode? needle.content).isSome ∧ StandsApart unicode (textStr hay) (textStr needle) o) :
    Rejoins unicode hay needle := by
  have hbegin : Apart unicode.classOf [] (textStr hay) := fun c _ => rfl
  have hmatches : ∀ o ∈ occurrences (textStr needle) (textStr hay).length ([] : List Char).length
      (textStr hay), StandsApart unicode ([] ++ textStr hay) (textStr needle) o :=
    fun o ho => (hapart o ho).2
  obtain ⟨hseamless, hflatten⟩ := seamless_splitOn hne hbegin hmatches
  have hsplit : textSplit unicode hay needle =
      textArray unicode (splitOn (textStr needle) (textStr hay).length (textStr hay)) := by
    unfold textSplit
    rw [if_neg hne]
  have hlength := length_splitOn (textStr needle) (textStr hay).length 0 (textStr hay)
  have hparts := wellFormed_textSplit unicode hay needle
  unfold Rejoins
  rw [hsplit] at hparts ⊢
  generalize splitOn (textStr needle) (textStr hay).length (textStr hay) = parts
    at hseamless hflatten hlength hparts ⊢
  -- the pieces hold what the parts are, and are valid UTF-8
  have htexts : ((textArray unicode parts).intersperse needle).map (fun p => lossy p.content) =
      parts.intersperse (textStr needle) := by
    rw [map_intersperse, ← textStr_eq, textArray, List.map_map]
    refine congrArg (List.intersperse (textStr needle)) ?_
    conv => rhs; rw [← List.map_id parts]
    refine List.map_congr_left fun part _ => ?_
    show lossy (allocText unicode (encode part)).content = part
    rw [content_allocText, lossy_encode]
  have hpart : ∀ piece ∈ textArray unicode parts, (decode? piece.content).isSome := by
    intro piece hpiece
    obtain ⟨part, -, rfl⟩ := List.mem_map.mp hpiece
    rw [content_allocText]
    exact isSome_decode?_encode part
  have hpieces : ∀ piece ∈ (textArray unicode parts).intersperse needle,
      (decode? piece.content).isSome := by
    intro piece hpiece
    by_cases hnone : occurrences (textStr needle) (textStr hay).length 0 (textStr hay) = []
    · rw [hnone] at hlength
      obtain ⟨part, rfl⟩ := List.length_eq_one_iff.mp hlength
      exact hpart piece hpiece
    · obtain ⟨o, ho⟩ := List.exists_mem_of_ne_nil _ hnone
      rcases mem_of_mem_intersperse hpiece with rfl | hpiece
      · exact (hapart o ho).1
      · exact hpart piece hpiece
  have hjoinable : Joinable unicode ((textArray unicode parts).intersperse needle) := by
    refine ⟨hpieces, seamsKept_of_seamless (fun text htext => (mem_contents.mp htext).1) ?_ _⟩
    unfold contents
    rw [htexts]
    exact hseamless.filter
  have hjoined := wellFormed_textJoin hparts hneedle hjoinable
  have hcontent : (textJoin unicode (textArray unicode parts) needle).content = hay.content := by
    have hall : (textJoin unicode (textArray unicode parts) needle).content =
        ((textArray unicode parts).intersperse needle).flatMap (·.content) := by
      unfold textJoin
      exact content_allocTextWithHeader _ _ _
    obtain ⟨hlossy, hwhole⟩ := lossy_pieces hpieces
    have htext : (contents ((textArray unicode parts).intersperse needle)).flatten = textStr hay := by
      unfold contents
      rw [flatten_filter_ne_nil, htexts, hflatten]
    rw [hall, ← isSome_decode?_iff_encode_lossy.mp hwhole, hlossy, htext]
    exact valid_iff_encode_textStr.mp hvalid
  refine ⟨hcontent, ?_, ?_⟩
  · rw [hjoined.count, hhay.count, hcontent]
  · have hclusters := hseamless.graphemes_flatten
    rw [hflatten] at hclusters
    have hmap : (textArray unicode parts).map (textGraphemes unicode) =
        parts.map fun part => textArray unicode (graphemesOf unicode part) := by
      rw [textArray, List.map_map]
      refine List.map_congr_left fun part _ => ?_
      show textArray unicode (graphemesOf unicode (textStr (allocText unicode (encode part)))) = _
      rw [textStr_eq, content_allocText, lossy_encode]
    rw [hmap, textGraphemes, textGraphemes,
      ← map_intersperse (fun part => textArray unicode (graphemesOf unicode part)),
      show graphemesOf unicode (textStr hay) = _ from hclusters]
    show _ = List.map (fun part => allocText unicode (encode part))
      (([] : List (List Char)) ++ (parts.intersperse (textStr needle)).flatMap (graphemesOf unicode))
    rw [List.nil_append, List.map_flatMap]
    rfl

/-! ### Every match -/

/-- On a valid text and with a needle that is not empty, matches keep to clusters exactly if the needle is
valid UTF-8 wherever it is found and each match acted on stands apart. -/
theorem matches_keep_clusters (hhay : WellFormed unicode hay) (hneedle : WellFormed unicode needle)
    (hvalid : (decode? hay.content).isSome) (hne : needle.content ≠ []) (replacement : QnSlice)
    (op : Matching) :
    op.ActsOn unicode hay needle replacement
        (op.occurrences unicode (textStr hay) (textStr needle)) ∧
      (op.KeepsClusters unicode hay needle ↔
        ∀ o ∈ op.occurrences unicode (textStr hay) (textStr needle),
          (decode? needle.content).isSome ∧
            StandsApart unicode (textStr hay) (textStr needle) o) := by
  have hne' : textStr needle ≠ [] := by
    rw [textStr_eq]
    exact fun h => hne (lossy_eq_nil_iff.mp h)
  refine ⟨op.actsOn_occurrences hhay hne' replacement, fun hkeeps o ho => ?_, fun hapart => ⟨?_, ?_⟩⟩
  · have hmatch := op.prefix_of_mem_occurrences hne' ho
    exact (cutsOut_iff hhay hneedle hne' hmatch).mp (hkeeps.1 o ho)
  · intro o ho
    have hmatch := op.prefix_of_mem_occurrences hne' ho
    exact (cutsOut_iff hhay hneedle hne' hmatch).mpr (hapart o ho)
  · cases op with
    | split => exact rejoins_of_standsApart hhay hneedle hvalid hne' hapart
    | replaceAll => exact trivial
    | replace count => exact trivial
    | find start => exact trivial

theorem content_latin (text : List Char) :
    textStr (allocText latin (encode text)) = text ∧
      (decode? (allocText latin (encode text)).content).isSome := by
  rw [textStr_eq, content_allocText, lossy_encode]
  exact ⟨rfl, isSome_decode?_encode text⟩

/-- The accented letter behind the one sought. -/
theorem matches_keep_clusters_letters :
    (Matching.find 0).KeepsClusters latin (allocText latin (encode ['a', 'b', 'e', '\u0301']))
      (allocText latin (encode ['b'])) := by
  have hmatches := matches_keep_clusters (wellFormed_allocText latin (encode ['a', 'b', 'e', '\u0301']))
    (wellFormed_allocText latin (encode ['b'])) (content_latin _).2 (by decide) QnSlice.empty (.find 0)
  rw [(content_latin _).1, (content_latin _).1] at hmatches
  apply hmatches.2.mpr
  intro o ho
  have hfound : (Matching.find 0).occurrences latin ['a', 'b', 'e', '\u0301'] ['b'] = [1] := by decide
  rw [hfound] at ho
  obtain rfl := List.mem_singleton.mp ho
  exact ⟨(content_latin _).2, by decide, by decide⟩

/-- The letter sought is found within the accented one. -/
theorem match_within_cluster :
    ¬ ∀ (unicode : Unicode) (hay needle : QnSlice), WellFormed unicode hay → WellFormed unicode needle →
      (decode? hay.content).isSome → needle.content ≠ [] → ∀ op : Matching,
        op.KeepsClusters unicode hay needle := by
  intro h
  have hhay := wellFormed_allocText latin (encode ['e', '\u0301'])
  have hneedle := wellFormed_allocText latin (encode ['e'])
  have hkeeps := h latin _ _ hhay hneedle (content_latin _).2 (by decide) .split
  have hmatch : ['e'] <+: ['e', '\u0301'].drop 0 := by decide
  have hcuts := hkeeps.1 0 (by
    rw [(content_latin _).1, (content_latin _).1]
    decide)
  rw [cutsOut_iff hhay hneedle (by rw [(content_latin _).1]; decide)
    (by rw [(content_latin _).1, (content_latin _).1]; exact hmatch), (content_latin _).1,
    (content_latin _).1] at hcuts
  exact absurd hcuts.2.2 (by decide)

end Quilon.Text
