import Mathlib.Data.Bool.AllAny
import Quilon.Library.Transition
import Quilon.Runtime.Text

/-!
# What the header of a text says of it

`text_header` describes the bytes it is computed from (`describes_textHeader`), and so does what the
operations write that allocate without a seam.  `+` and `join` count from the headers of the pieces
and from the clusters at the seams; `Joinable` says when that is right.

Main results:

* `wellFormed_textConcat_iff`: for `+` of well-formed UTF-8, exactly then;
* `wellFormed_textJoin`: `join` of pieces that can be put together;
* `texts_wellFormed`: every text of a program that puts texts together only where they can be;
* `illFormed_concat`: without that a header may claim bytes to be UTF-8 that are not.
-/

namespace Quilon.Text

open Utf8

variable {unicode : Unicode} {bytes : List UInt8} {text front : List Char} {slice : QnSlice}

/-- A header says nothing wrong about the bytes behind it. -/
structure Describes (unicode : Unicode) (header : Header) (bytes : List UInt8) : Prop where
  count : header.count = countOf unicode (lossy bytes)
  valid : header.flags.validUtf8 = true → (decode? bytes).isSome
  ascii : header.flags.asciiAligned = true →
    (∀ b ∈ bytes, b < 128) ∧
      ∀ grapheme ∈ graphemesOf unicode (lossy bytes), grapheme.length = 1
  noBidi : header.flags.noBidiControls = true → ∀ c ∈ lossy bytes, isBidiControl c = false

def WellFormed (unicode : Unicode) (slice : QnSlice) : Prop :=
  Describes unicode (textHeaderOf slice) slice.content

/-! ### Characters that stand by themselves -/

/-- Below the floor, only a carriage return and a line feed share a cluster. -/
theorem joins_of_plain {before : List GraphemeClass} {last next : GraphemeClass}
    (hlast : last ∈ [GraphemeClass.cr, .lf, .control, .pictographic, .other])
    (hnext : next ∈ [GraphemeClass.cr, .lf, .control, .pictographic, .other])
    (h : ¬ (last = .cr ∧ next = .lf)) : joins (last :: before) next = false := by
  have hfalse : ∀ last ∈ [GraphemeClass.cr, .lf, .control, .pictographic, .other],
      ∀ next ∈ [GraphemeClass.cr, .lf, .control, .pictographic, .other],
        (last.isControl || next.isControl) = true ∨
          (last ≠ .zwj ∧ GraphemeClass.hangulJoins last next = false ∧ next.isExtender = false ∧
            next ≠ .spacingMark ∧ last ≠ .prepend ∧ next ≠ .consonant ∧
              next ≠ .regionalIndicator) := by
    decide
  simp only [joins, if_neg h]
  rcases hfalse last hlast next hnext with
    hcontrol | ⟨hzwj, hhangul, hext, hmark, hprep, hcons, hri⟩
  · rw [if_pos hcontrol]
  · split
    · rfl
    · have hjoiner : afterJoiner (last :: before) = false := by
        cases last <;> first | rfl | exact absurd rfl hzwj
      simp [hhangul, hext, hmark, hprep, hcons, hri, hjoiner]

theorem head?_after (unicode : Unicode) (before : List GraphemeClass) {c : Char}
    (h : text.getLast? = some c) :
    (after unicode.classOf before text).head? = some (unicode.classOf c) := by
  obtain ⟨init, rfl⟩ := List.getLast?_eq_some_iff.mp h
  rw [after_append]
  rfl

/-- The seam that `seam_corrected` and `join` do not look at. -/
theorem joins_of_neverMerges {last first : Char} (hlast : text.getLast? = some last)
    (h : neverMerges last first = true) :
    joins (after unicode.classOf [] text) (unicode.classOf first) = false := by
  unfold neverMerges at h
  rw [Bool.and_eq_true, Bool.and_eq_true, decide_eq_true_iff, decide_eq_true_iff] at h
  obtain ⟨⟨hlow, hlow'⟩, hcrlf⟩ := h
  have hhead := head?_after unicode [] hlast
  cases hafter : after unicode.classOf [] text with
  | nil => rfl
  | cons k before =>
    rw [hafter] at hhead
    obtain rfl : k = unicode.classOf last := Option.some.inj hhead
    apply joins_of_plain (unicode.below_floor last hlow) (unicode.below_floor first hlow')
    rintro ⟨hcr, hlf⟩
    rw [unicode.classOf_cr] at hcr
    rw [unicode.classOf_lf] at hlf
    rw [hcr, hlf] at hcrlf
    exact absurd hcrlf (by decide)

/-- Below the floor, and without carriage returns, each character is a cluster. -/
theorem length_graphemes_of_below_floor (unicode : Unicode)
    (hfloor : ∀ c ∈ text, c < graphemeMergeFloor)
    (hcr : '\r' ∉ text) : (graphemesOf unicode text).length = text.length := by
  apply length_graphemes_of_not_joins
  intro init c back hsplit
  cases hlast : init.getLast? with
  | none =>
    rw [List.getLast?_eq_none_iff] at hlast
    rw [hlast]
    rfl
  | some last =>
    have hmem : last ∈ text := by
      rw [hsplit]
      exact List.mem_append_left _ (List.mem_of_getLast? hlast)
    have hc : c ∈ text := by
      rw [hsplit]
      exact List.mem_append_right _ List.mem_cons_self
    apply joins_of_neverMerges hlast
    unfold neverMerges
    have hne : last ≠ '\r' := fun h => hcr (h ▸ hmem)
    simp [hfloor last hmem, hfloor c hc, hne]

/-! ### What is allocated -/

theorem isAsciiGraphemeAligned_iff :
    isAsciiGraphemeAligned bytes = true ↔ (∀ b ∈ bytes, b < 128) ∧ 13 ∉ bytes := by
  unfold isAsciiGraphemeAligned
  rw [Bool.and_eq_true, List.all_eq_true, Bool.not_eq_true', List.contains_eq_mem,
    decide_eq_false_iff_not]
  simp only [decide_eq_true_iff]

theorem asciiChar_facts {b : UInt8} (h : b < 128) :
    asciiChar b < graphemeMergeFloor ∧ isBidiControl (asciiChar b) = false ∧
      (asciiChar b = '\r' → b = 13) := by
  have hall : ∀ n < 128, Char.ofNat n < graphemeMergeFloor ∧
      isBidiControl (Char.ofNat n) = false ∧ (Char.ofNat n = '\r' → n = 13) := by decide
  obtain ⟨hfloor, hbidi, hcr⟩ := hall b.toNat (UInt8.lt_iff_toNat_lt.mp h)
  exact ⟨hfloor, hbidi, fun heq => UInt8.toNat_inj.mp (hcr heq)⟩

theorem not_isBidiControl_of_below_floor {c : Char} (h : c < graphemeMergeFloor) :
    isBidiControl c = false := by
  unfold isBidiControl
  rw [decide_eq_false_iff_not]
  intro hmem
  have hall : ∀ c ∈ ['\u202A', '\u202B', '\u202D', '\u202E', '\u202C', '\u2066', '\u2067',
      '\u2068', '\u2069', '\u200E', '\u200F', '\u061C'], ¬ c < graphemeMergeFloor :=
    List.all_iff_forall_prop.mp (by decide)
  exact hall c hmem h

theorem ascii_alone (unicode : Unicode) (hascii : ∀ b ∈ bytes, b < 128) (hcr : 13 ∉ bytes) :
    (graphemesOf unicode (lossy bytes)).length = bytes.length := by
  rw [lossy_ascii hascii]
  have hlength : (bytes.map asciiChar).length = bytes.length := List.length_map _
  rw [← hlength]
  apply length_graphemes_of_below_floor unicode
  · intro c hc
    obtain ⟨b, hb, rfl⟩ := List.mem_map.mp hc
    exact (asciiChar_facts (hascii b hb)).1
  · intro hmem
    obtain ⟨b, hb, hchar⟩ := List.mem_map.mp hmem
    exact hcr ((asciiChar_facts (hascii b hb)).2.2 hchar ▸ hb)

theorem isSome_decode?_ascii (hascii : ∀ b ∈ bytes, b < 128) : (decode? bytes).isSome := by
  rw [isSome_decode?_iff]
  exact ⟨bytes.map asciiChar, (encode_ascii hascii).symm⟩

theorem noBidi_ascii (hascii : ∀ b ∈ bytes, b < 128) :
    ∀ c ∈ lossy bytes, isBidiControl c = false := by
  rw [lossy_ascii hascii]
  intro c hc
  obtain ⟨b, hb, rfl⟩ := List.mem_map.mp hc
  exact (asciiChar_facts (hascii b hb)).2.1

/-- The header of bytes found to be ASCII without carriage returns. -/
theorem describes_ascii (unicode : Unicode) (h : isAsciiGraphemeAligned bytes = true) :
    Describes unicode ⟨bytes.length, ⟨true, true, false, true⟩⟩ bytes := by
  obtain ⟨hascii, hcr⟩ := isAsciiGraphemeAligned_iff.mp h
  have hcount := ascii_alone unicode hascii hcr
  refine ⟨congrArg Int.ofNat hcount.symm, fun _ => isSome_decode?_ascii hascii,
    fun _ => ⟨hascii, ?_⟩, fun _ => noBidi_ascii hascii⟩
  apply length_graphemes_eq_iff.mp
  rw [lossy_ascii hascii, List.length_map]
  rw [lossy_ascii hascii] at hcount
  exact hcount

theorem getD_decode? : (decode? bytes).getD (lossy bytes) = lossy bytes := by
  cases h : decode? bytes with
  | none => rfl
  | some text =>
    rw [decode?_eq_some_iff] at h
    rw [h, lossy_encode]
    rfl

theorem describes_textHeader (unicode : Unicode) (bytes : List UInt8) :
    Describes unicode (textHeader unicode bytes) bytes := by
  unfold textHeader
  rw [getD_decode?]
  by_cases hascii : isAsciiGraphemeAligned bytes = true
  · rw [if_pos hascii]
    exact describes_ascii unicode hascii
  · rw [if_neg hascii]
    dsimp only
    split
    case isTrue hplain =>
      rw [Bool.and_eq_true, List.all_eq_true, Bool.not_eq_true', List.contains_eq_mem,
        decide_eq_false_iff_not] at hplain
      have hfloor : ∀ c ∈ lossy bytes, c < graphemeMergeFloor :=
        fun c hc => of_decide_eq_true (hplain.1 c hc)
      have hcount := length_graphemes_of_below_floor unicode hfloor hplain.2
      exact ⟨congrArg Int.ofNat hcount.symm, id, nofun,
        fun _ c hc => not_isBidiControl_of_below_floor (hfloor c hc)⟩
    case isFalse =>
      refine ⟨rfl, id, nofun, fun h c hc => ?_⟩
      have hnone : (lossy bytes).any isBidiControl = false := by simpa using h
      exact Bool.eq_false_iff.mpr (List.any_eq_false.mp hnone c hc)

/-! ### What each operation allocates -/

theorem wellFormed_empty (unicode : Unicode) : WellFormed unicode QnSlice.empty :=
  @describes_ascii [] unicode rfl

@[simp] theorem content_allocTextWithHeader (bytes : List UInt8) (count : Int) (flags : Flags) :
    (allocTextWithHeader bytes count flags).content = bytes := by
  unfold allocTextWithHeader
  split
  case isTrue hempty => rw [hempty]; rfl
  case isFalse => rfl

theorem textHeaderOf_allocTextWithHeader {bytes : List UInt8} (hne : bytes ≠ []) (count : Int)
    (flags : Flags) : textHeaderOf (allocTextWithHeader bytes count flags) = ⟨count, flags⟩ := by
  unfold allocTextWithHeader
  rw [if_neg hne]
  rfl

theorem wellFormed_allocTextWithHeader {count : Int} {flags : Flags}
    (h : Describes unicode ⟨count, flags⟩ bytes) :
    WellFormed unicode (allocTextWithHeader bytes count flags) := by
  unfold allocTextWithHeader
  split
  · exact wellFormed_empty unicode
  · exact h

theorem content_allocText (unicode : Unicode) (bytes : List UInt8) :
    (allocText unicode bytes).content = bytes := by
  unfold allocText
  exact content_allocTextWithHeader _ _ _

theorem wellFormed_allocText (unicode : Unicode) (bytes : List UInt8) :
    WellFormed unicode (allocText unicode bytes) :=
  wellFormed_allocTextWithHeader (describes_textHeader unicode bytes)

theorem describes_literalHeader (unicode : Unicode) (bytes : List UInt8) :
    Describes unicode (literalHeader unicode bytes) bytes :=
  { describes_textHeader unicode bytes with }

theorem wellFormed_literalText (unicode : Unicode) (bytes : List UInt8) :
    WellFormed unicode (literalText unicode bytes) := describes_literalHeader unicode bytes

/-- `alloc_text_with_count` on bytes that are well-formed and counted. -/
theorem wellFormed_allocTextWithCount {count : Int} (hvalid : (decode? bytes).isSome)
    (hcount : count = countOf unicode (lossy bytes)) :
    WellFormed unicode (allocTextWithCount bytes count) := by
  apply wellFormed_allocTextWithHeader
  split
  case isTrue hascii =>
    have h := describes_ascii unicode hascii
    exact { h with count := hcount }
  case isFalse => exact ⟨hcount, fun _ => hvalid, nofun, nofun⟩

theorem isSome_decode?_encode (text : List Char) : (decode? (encode text)).isSome := by
  rw [decode?_encode]
  rfl

theorem wellFormed_of_count {count : Int} (hcount : count = countOf unicode text) :
    WellFormed unicode (allocTextWithCount (encode text) count) := by
  apply wellFormed_allocTextWithCount (isSome_decode?_encode text)
  rw [lossy_encode, hcount]

theorem wellFormed_textArray (unicode : Unicode) (parts : List (List Char)) :
    ∀ slice ∈ textArray unicode parts, WellFormed unicode slice := by
  intro slice hslice
  obtain ⟨part, _, rfl⟩ := List.mem_map.mp hslice
  exact wellFormed_allocText unicode _

theorem wellFormed_textSplit (unicode : Unicode) (slice separator : QnSlice) :
    ∀ piece ∈ textSplit unicode slice separator, WellFormed unicode piece := by
  unfold textSplit
  split
  · exact wellFormed_textArray unicode _
  · exact wellFormed_textArray unicode _

/-! ### Slices -/

theorem clamp_le (i : Int) (length : Nat) : clamp i length ≤ length := by
  unfold clamp
  omega

/-- Clusters in a row are counted by where they begin and end. -/
theorem count_pieces (unicode : Unicode) (text : List Char) (lo : Nat) {hi : Nat}
    (hhi : hi ≤ (graphemesOf unicode text).length) :
    countOf unicode (((graphemesOf unicode text).take hi).drop lo).flatten =
      ((hi - lo : Nat) : Int) := by
  have htake := graphemes_flatten_take unicode.classOf text hi
  have hdrop := graphemes_flatten_drop unicode.classOf
    ((graphemes unicode.classOf text).take hi).flatten lo
  rw [htake] at hdrop
  unfold countOf graphemesOf
  unfold graphemesOf at hhi
  rw [hdrop, List.length_drop, List.length_take, Nat.min_eq_left hhi]

theorem ascii_slice (h : ∀ b ∈ bytes, b < 128) (lo hi : Nat) :
    ∀ b ∈ (bytes.take hi).drop lo, b < 128 :=
  fun b hb => h b (List.mem_of_mem_take (List.mem_of_mem_drop hb))

/-- Where each byte is a cluster, a slice of the bytes has as many clusters as bytes. -/
theorem count_ascii_slice (hascii : ∀ b ∈ bytes, b < 128)
    (halone : ∀ grapheme ∈ graphemesOf unicode (lossy bytes), grapheme.length = 1)
    (lo : Nat) {hi : Nat} (hhi : hi ≤ bytes.length) :
    countOf unicode (lossy ((bytes.take hi).drop lo)) = ((hi - lo : Nat) : Int) := by
  have hsingle := eq_map_singleton_flatten halone
  unfold graphemesOf at hsingle
  rw [flatten_graphemes] at hsingle
  have hlength : (graphemesOf unicode (lossy bytes)).length = bytes.length := by
    unfold graphemesOf
    rw [hsingle, List.length_map, lossy_ascii hascii, List.length_map]
  have hcount := count_pieces unicode (lossy bytes) lo (hlength ▸ hhi)
  have hpieces : (((graphemesOf unicode (lossy bytes)).take hi).drop lo).flatten =
      ((lossy bytes).take hi).drop lo := by
    unfold graphemesOf
    rw [hsingle, ← List.map_take, ← List.map_drop, List.flatten_eq_flatMap, List.flatMap_map]
    exact List.flatMap_singleton' _
  rw [hpieces, lossy_ascii hascii] at hcount
  rw [lossy_ascii (ascii_slice hascii lo hi), List.map_drop, List.map_take]
  exact hcount

theorem wellFormed_textSlice (h : WellFormed unicode slice) (start stop : Int) :
    WellFormed unicode (textSlice unicode slice start stop) := by
  unfold textSlice
  split
  case isTrue hflag =>
    obtain ⟨hascii, halone⟩ := h.ascii hflag
    dsimp only
    split
    case isTrue => exact wellFormed_empty unicode
    case isFalse hlt =>
      have hcount := count_ascii_slice hascii halone (clamp start slice.content.length)
        (clamp_le stop slice.content.length)
      apply wellFormed_allocTextWithCount (isSome_decode?_ascii (ascii_slice hascii _ _))
      rw [hcount]
      omega
  case isFalse =>
    dsimp only
    split
    case isTrue => exact wellFormed_empty unicode
    case isFalse hlt =>
      apply wellFormed_of_count
      rw [count_pieces unicode (textStr slice) _ (clamp_le stop _)]
      omega

theorem wellFormed_textAt (h : WellFormed unicode slice) (index : Int) :
    WellFormed unicode (textAt unicode slice index) := by
  unfold textAt
  split
  case isTrue => exact wellFormed_empty unicode
  case isFalse =>
    split
    case isTrue hflag =>
      obtain ⟨hascii, _⟩ := h.ascii hflag
      cases hbyte : slice.content[index.toNat]? with
      | none => exact wellFormed_empty unicode
      | some b =>
        have hb : ∀ b' ∈ [b], b' < 128 := by
          intro b' hb'
          obtain rfl := List.mem_singleton.mp hb'
          exact hascii b' (List.mem_of_getElem? hbyte)
        apply wellFormed_allocTextWithCount (isSome_decode?_ascii hb)
        rw [lossy_ascii hb]
        rfl
    case isFalse =>
      cases hgrapheme : (graphemesOf unicode (textStr slice))[index.toNat]? with
      | none => exact wellFormed_empty unicode
      | some grapheme =>
        apply wellFormed_of_count
        have hself := graphemes_of_mem (List.mem_of_getElem? hgrapheme)
        unfold countOf graphemesOf
        rw [hself]
        rfl

/-! ### Across a seam -/

variable {trailing : List Char}

theorem countOf_append (unicode : Unicode) (front text : List Char) :
    countOf unicode (front ++ text) =
      countOf unicode front +
        startsFrom unicode.classOf (after unicode.classOf [] front) text := by
  unfold countOf graphemesOf
  rw [length_graphemes_append]
  exact Int.natCast_add _ _

theorem countOf_eq_startsFrom (unicode : Unicode) (text : List Char) :
    countOf unicode text = startsFrom unicode.classOf [] text := by
  unfold countOf graphemesOf
  rw [length_graphemes]

/-- Where no rule joins, the counts add up. -/
theorem countOf_append_of_not_joins
    (h : joins (after unicode.classOf [] front) (unicode.classOf (firstChar text)) = false)
    (hne : text ≠ []) :
    countOf unicode (front ++ text) = countOf unicode front + countOf unicode text := by
  cases text with
  | nil => exact absurd rfl hne
  | cons c text =>
    have hc : joins (after unicode.classOf [] front) (unicode.classOf c) = false := h
    have halone : joins [] (unicode.classOf c) = false := rfl
    rw [countOf_append, countOf_eq_startsFrom unicode (c :: text), startsFrom_cons_of_not_joins hc,
      startsFrom_cons_of_not_joins halone, startsFrom_congr (context_of_not_joins hc)]

/-- `trailing` is the last cluster of `front`. -/
def Trails (unicode : Unicode) (front trailing : List Char) : Prop :=
  (graphemesOf unicode front).getLast? = some trailing

theorem trails_lastGrapheme (unicode : Unicode) (hne : text ≠ []) :
    Trails unicode text (lastGrapheme unicode text) := by
  unfold Trails lastGrapheme
  cases h : (graphemesOf unicode text).getLast? with
  | none => exact absurd (List.getLast?_eq_none_iff.mp h) (graphemes_ne_nil hne)
  | some g => rfl

theorem head?_firstGrapheme (unicode : Unicode) (hne : text ≠ []) :
    (graphemesOf unicode text).head? = some (firstGrapheme unicode text) := by
  unfold firstGrapheme
  cases h : (graphemesOf unicode text).head? with
  | none => exact absurd (List.head?_eq_none_iff.mp h) (graphemes_ne_nil hne)
  | some g => rfl

theorem Trails.getLast? (h : Trails unicode front trailing) :
    trailing ≠ [] ∧ front.getLast? = trailing.getLast? := by
  have hflatten := flatten_graphemes unicode.classOf front
  have hmem : trailing ∈ graphemes unicode.classOf front := List.mem_of_getLast? h
  have hne := (segmented_graphemes unicode.classOf front).ne_nil trailing hmem
  obtain ⟨init, hinit⟩ := List.getLast?_eq_some_iff.mp h
  unfold graphemesOf at hinit
  rw [hinit, List.flatten_append, List.flatten_singleton] at hflatten
  refine ⟨hne, ?_⟩
  rw [← hflatten, List.getLast?_append_of_ne_nil _ hne]

theorem Trails.lastChar (h : Trails unicode front trailing) :
    Text.lastChar trailing = Text.lastChar front := by
  unfold Text.lastChar
  rw [h.getLast?.2]

theorem Trails.countOf (h : Trails unicode front trailing) : countOf unicode trailing = 1 := by
  unfold Text.countOf graphemesOf
  rw [graphemes_of_mem (List.mem_of_getLast? h)]
  rfl

theorem Trails.countOf_append (h : Trails unicode front trailing) (text : List Char) :
    Text.countOf unicode (trailing ++ text) =
      1 + startsFrom unicode.classOf (after unicode.classOf [] front) text := by
  rw [Text.countOf_append, h.countOf, startsFrom_congr (context_after_getLast h)]

/-- What the window of two clusters tells is right unless the clusters behind it change. -/
theorem countOf_window (h : Trails unicode front trailing) (hne : text ≠ []) :
    countOf unicode (front ++ text) =
        countOf unicode front + countOf unicode text - 2 +
          countOf unicode (trailing ++ firstGrapheme unicode text) ↔
      ripples unicode.classOf (after unicode.classOf [] front) text = false := by
  rw [← startsFrom_seam_iff (head?_firstGrapheme unicode hne), h.countOf_append, countOf_append,
    countOf_eq_startsFrom unicode text]
  omega

theorem joins_of_neverMerges' (hne : front ≠ [])
    (h : neverMerges (lastChar front) (firstChar text) = true) :
    joins (after unicode.classOf [] front) (unicode.classOf (firstChar text)) = false := by
  cases hlast : front.getLast? with
  | none => exact absurd (List.getLast?_eq_none_iff.mp hlast) hne
  | some last =>
    unfold lastChar at h
    rw [hlast, Option.getD_some] at h
    exact joins_of_neverMerges hlast h

/-- `seam_corrected` counts the clusters of both sides together, unless those behind the seam
change. -/
theorem seamCorrected_count {lAscii rAscii : Bool} (hleft : front ≠ []) (hright : text ≠ [])
    (h : ripples unicode.classOf (after unicode.classOf [] front) text = false) :
    (seamCorrected unicode front (countOf unicode front) lAscii text (countOf unicode text)
      rAscii).1 = countOf unicode (front ++ text) := by
  unfold seamCorrected
  rw [if_neg hleft, if_neg hright]
  split
  case isTrue hnever =>
    exact (countOf_append_of_not_joins (joins_of_neverMerges' hleft hnever) hright).symm
  case isFalse =>
    exact ((countOf_window (trails_lastGrapheme unicode hleft) hright).mpr h).symm

/-! ### Counting a join -/

/-- The text behind `front` goes into its last cluster whole, or begins one of its own. -/
def Separate (unicode : Unicode) (front text : List Char) : Prop :=
  joins (after unicode.classOf [] front) (unicode.classOf (firstChar text)) = true →
    countOf unicode (front ++ text) = countOf unicode front

/-- Counting the texts behind `front` from the seams between them is right: no cluster behind a seam
changes; no line feed follows a carriage return where ASCII is counted by its bytes; and a text with
another one behind it leaves a last cluster that is seen. -/
def SeamsKept (unicode : Unicode) (ascii : Bool) (front : List Char) : List (List Char) → Prop
  | [] => True
  | text :: rest =>
    ripples unicode.classOf (after unicode.classOf [] front) text = false ∧
      (ascii = true → ¬ (front.getLast? = some '\r' ∧ text.head? = some '\n')) ∧
        (rest ≠ [] → Separate unicode front text) ∧ SeamsKept unicode ascii (front ++ text) rest

theorem trails_of_not_joins
    (h : joins (after unicode.classOf [] front) (unicode.classOf (firstChar text)) = false)
    (hne : text ≠ []) : Trails unicode (front ++ text) (lastGrapheme unicode text) := by
  cases text with
  | nil => exact absurd rfl hne
  | cons c text =>
    unfold Trails graphemesOf
    rw [graphemes_append_of_not_joins h rfl,
      List.getLast?_append_of_ne_nil _ (graphemes_ne_nil hne)]
    exact trails_lastGrapheme unicode hne

theorem firstGrapheme_of_countOf (hone : countOf unicode text = 1) :
    firstGrapheme unicode text = text := by
  have hflatten := flatten_graphemes unicode.classOf text
  have hlength : (graphemes unicode.classOf text).length = 1 := Int.ofNat.inj hone
  obtain ⟨g, hg⟩ := List.length_eq_one_iff.mp hlength
  unfold firstGrapheme graphemesOf
  rw [hg] at hflatten ⊢
  rwa [List.flatten_singleton] at hflatten

theorem one_le_countOf (unicode : Unicode) (hne : text ≠ []) : 1 ≤ countOf unicode text := by
  have hclusters : graphemes unicode.classOf text ≠ [] := graphemes_ne_nil hne
  have hpos := List.length_pos_iff.mpr hclusters
  unfold countOf graphemesOf
  omega

/-- One turn of the fold. -/
theorem foldSeam_step (htrails : Trails unicode front trailing) (hfront : front ≠ [])
    (hne : text ≠ [])
    (hquiet : ripples unicode.classOf (after unicode.classOf [] front) text = false) :
    ∃ trailing', foldSeam unicode (some (countOf unicode front, trailing)) text
        (countOf unicode text) = some (countOf unicode (front ++ text), trailing') ∧
      (Separate unicode front text → Trails unicode (front ++ text) trailing') := by
  have hwindow := (countOf_window htrails hne).mpr hquiet
  have hseam := htrails.countOf_append (firstGrapheme unicode text)
  simp only [foldSeam, if_neg hne, htrails.lastChar]
  split
  case isTrue hnever =>
    have hnot : joins (after unicode.classOf [] front) (unicode.classOf (firstChar text)) =
        false := joins_of_neverMerges' hfront hnever
    rw [countOf_append_of_not_joins hnot hne]
    exact ⟨_, rfl, fun _ => trails_of_not_joins hnot hne⟩
  case isFalse =>
    rw [hwindow]
    refine ⟨_, rfl, fun hseparate => ?_⟩
    by_cases hjoins :
        joins (after unicode.classOf [] front) (unicode.classOf (firstChar text)) = true
    · -- the text goes into the last cluster whole, so it is the window's second half
      have hcount := hseparate hjoins
      have hone := one_le_countOf unicode hne
      have hzero : startsFrom unicode.classOf (after unicode.classOf [] front) text = 0 := by
        rw [countOf_append] at hcount
        omega
      have htext : countOf unicode text = 1 := by omega
      have hfirst := firstGrapheme_of_countOf htext
      rw [hfirst] at hseam ⊢
      rw [hzero] at hseam
      rw [if_pos (by omega)]
      exact graphemes_append_of_joins htrails hzero
    · rw [Bool.not_eq_true] at hjoins
      have hadds := countOf_append_of_not_joins hjoins hne
      rw [if_neg (by omega)]
      exact trails_of_not_joins hjoins hne

/-- The fold counts what the seams keep. -/
theorem foldSeam_run {texts : List (List Char)} (hne : ∀ text ∈ texts, text ≠ [])
    (hfront : front ≠ []) (hkept : SeamsKept unicode false front texts)
    (htrails : texts ≠ [] → Trails unicode front trailing) :
    ∃ trailing', texts.foldl
        (fun acc text => foldSeam unicode acc text (countOf unicode text))
        (some (countOf unicode front, trailing)) =
      some (countOf unicode (front ++ texts.flatten), trailing') := by
  induction texts generalizing front trailing with
  | nil =>
    rw [List.flatten_nil, List.append_nil]
    exact ⟨trailing, rfl⟩
  | cons text texts ih =>
    obtain ⟨hquiet, _, hseparate, hrest⟩ := hkept
    obtain ⟨trailing', hstep, htrails'⟩ := foldSeam_step (htrails (List.cons_ne_nil _ _)) hfront
      (hne text List.mem_cons_self) hquiet
    rw [List.foldl_cons, hstep, List.flatten_cons, ← List.append_assoc]
    apply ih (fun text' htext' => hne text' (List.mem_cons_of_mem _ htext'))
      (List.append_ne_nil_of_left_ne_nil hfront _) hrest
    intro hmore
    exact htrails' (hseparate hmore)

/-- Texts of plain characters, no carriage return before a line feed at their seams. -/
theorem countOf_plain {texts : List (List Char)} (hne : ∀ text ∈ texts, text ≠ [])
    (hplain : ∀ text ∈ texts, ∀ c ∈ text, c < graphemeMergeFloor)
    (hfront : ∀ c ∈ front, c < graphemeMergeFloor) (hkept : SeamsKept unicode true front texts) :
    countOf unicode (front ++ texts.flatten) =
      countOf unicode front + (texts.map (countOf unicode)).sum := by
  induction texts generalizing front with
  | nil =>
    rw [List.flatten_nil, List.append_nil, List.map_nil, List.sum_nil, Int.add_zero]
  | cons text texts ih =>
    obtain ⟨_, hcrlf, _, hrest⟩ := hkept
    have htext := hne text List.mem_cons_self
    have hlow := hplain text List.mem_cons_self
    have hnot :
        joins (after unicode.classOf [] front) (unicode.classOf (firstChar text)) = false := by
      cases hlast : front.getLast? with
      | none =>
        rw [List.getLast?_eq_none_iff] at hlast
        rw [hlast]
        rfl
      | some last =>
        obtain ⟨c, text', rfl⟩ := List.exists_cons_of_ne_nil htext
        have hc : c < graphemeMergeFloor := hlow c List.mem_cons_self
        apply joins_of_neverMerges hlast
        unfold neverMerges
        have hpair : (last == '\r' && c == '\n') = false := by
          by_contra hpair
          rw [Bool.not_eq_false, Bool.and_eq_true, beq_iff_eq, beq_iff_eq] at hpair
          exact hcrlf rfl ⟨hlast.trans (congrArg some hpair.1), congrArg some hpair.2⟩
        simp [firstChar, hfront last (List.mem_of_getLast? hlast), hc, hpair]
    have hfront' : ∀ c ∈ front ++ text, c < graphemeMergeFloor := by
      intro c hc
      rcases List.mem_append.mp hc with hc | hc
      · exact hfront c hc
      · exact hlow c hc
    have htail := ih (fun text' h => hne text' (List.mem_cons_of_mem _ h))
      (fun text' h => hplain text' (List.mem_cons_of_mem _ h)) hfront' hrest
    rw [List.flatten_cons, ← List.append_assoc, htail, countOf_append_of_not_joins hnot htext,
      List.map_cons, List.sum_cons]
    omega

/-! ### What `+` and `join` make -/

variable {pieces : List QnSlice}

/-- What the pieces say together. -/
def contents (pieces : List QnSlice) : List (List Char) :=
  (pieces.map fun piece => lossy piece.content).filter (· ≠ [])

/-- The pieces can be put together: each holds well-formed UTF-8, and their seams are counted
right. -/
def Joinable (unicode : Unicode) (pieces : List QnSlice) : Prop :=
  (∀ piece ∈ pieces, (decode? piece.content).isSome) ∧
    SeamsKept unicode (pieces.all isAscii) [] (contents pieces)

theorem flatten_filter_ne_nil {α : Type*} [DecidableEq α] (texts : List (List α)) :
    (texts.filter (· ≠ [])).flatten = texts.flatten := by
  induction texts with
  | nil => rfl
  | cons text texts ih =>
    rw [List.filter_cons]
    split
    case isTrue => rw [List.flatten_cons, List.flatten_cons, ih]
    case isFalse hnil =>
      have hempty : text = [] := by simpa using hnil
      rw [List.flatten_cons, ih, hempty, List.nil_append]

/-- Well-formed pieces are decoded one by one. -/
theorem lossy_pieces (hvalid : ∀ piece ∈ pieces, (decode? piece.content).isSome) :
    lossy (pieces.flatMap (·.content)) = (contents pieces).flatten ∧
      (decode? (pieces.flatMap (·.content))).isSome := by
  unfold contents
  rw [flatten_filter_ne_nil]
  induction pieces with
  | nil =>
    rw [List.flatMap_nil, lossy_nil, decode?]
    exact ⟨rfl, rfl⟩
  | cons piece pieces ih =>
    have hpiece := hvalid piece List.mem_cons_self
    obtain ⟨hlossy, hsome⟩ := ih fun p hp => hvalid p (List.mem_cons_of_mem _ hp)
    rw [List.flatMap_cons, lossy_append hpiece, hlossy, List.map_cons, List.flatten_cons]
    exact ⟨rfl, isSome_decode?_append hpiece hsome⟩

/-- What an ASCII flag says of a piece that holds something or not. -/
theorem WellFormed.plain (h : WellFormed unicode slice) (hflag : isAscii slice = true) :
    (∀ b ∈ slice.content, b < 128) ∧
      countOf unicode (lossy slice.content) = slice.content.length := by
  unfold isAscii at hflag
  rw [Bool.or_eq_true, decide_eq_true_iff] at hflag
  rcases hflag with hempty | hflag
  · rw [hempty, lossy_nil]
    exact ⟨nofun, rfl⟩
  · obtain ⟨hascii, halone⟩ := h.ascii hflag
    refine ⟨hascii, ?_⟩
    have hlength := length_graphemes_eq_iff.mpr halone
    unfold countOf graphemesOf
    rw [hlength, lossy_ascii hascii, List.length_map]

theorem textStr_eq (slice : QnSlice) : textStr slice = lossy slice.content := by
  unfold textStr fromUtf8Unchecked
  split <;> rfl

theorem contents_cons (slice : QnSlice) (pieces : List QnSlice) :
    contents (slice :: pieces) =
      if slice.content = [] then contents pieces else lossy slice.content :: contents pieces := by
  unfold contents
  rw [List.map_cons, List.filter_cons]
  by_cases hempty : slice.content = []
  · rw [if_pos hempty, hempty, lossy_nil, if_neg (by decide)]
  · have hne : lossy slice.content ≠ [] := fun h => hempty (lossy_eq_nil_iff.mp h)
    rw [if_neg hempty, if_pos (by simpa using hne)]

theorem mem_contents : text ∈ contents pieces ↔
    text ≠ [] ∧ ∃ piece ∈ pieces, lossy piece.content = text := by
  unfold contents
  rw [List.mem_filter, List.mem_map, decide_eq_true_iff, And.comm]

/-- The headers' counts are those of what the pieces hold. -/
theorem sum_counts (hwf : ∀ piece ∈ pieces, WellFormed unicode piece) :
    (pieces.map fun piece => (textHeaderOf piece).count).sum =
      ((contents pieces).map (countOf unicode)).sum := by
  induction pieces with
  | nil => rfl
  | cons piece pieces ih =>
    have hpiece := (hwf piece List.mem_cons_self).count
    have hrest := ih fun p hp => hwf p (List.mem_cons_of_mem _ hp)
    rw [List.map_cons, List.sum_cons, hrest, hpiece, contents_cons]
    split
    case isTrue hempty =>
      rw [hempty, lossy_nil]
      exact Int.zero_add _
    case isFalse => rw [List.map_cons, List.sum_cons]

theorem sum_countOf {texts : List (List Char)}
    (h : ∀ text ∈ texts, countOf unicode text = text.length) :
    (texts.map (countOf unicode)).sum = texts.flatten.length := by
  induction texts with
  | nil => rfl
  | cons text texts ih =>
    rw [List.map_cons, List.sum_cons, ih fun t ht => h t (List.mem_cons_of_mem _ ht),
      h text List.mem_cons_self, List.flatten_cons, List.length_append]
    exact (Int.natCast_add _ _).symm

/-- Pieces that are ASCII by their headers are counted by their headers. -/
theorem count_of_ascii (hwf : ∀ piece ∈ pieces, WellFormed unicode piece)
    (hjoinable : Joinable unicode pieces) (hascii : pieces.all isAscii = true) :
    countOf unicode (contents pieces).flatten =
        (pieces.map fun piece => (textHeaderOf piece).count).sum ∧
      countOf unicode (contents pieces).flatten = (contents pieces).flatten.length := by
  have hall : ∀ piece ∈ pieces, isAscii piece = true := List.all_eq_true.mp hascii
  have hplain : ∀ text ∈ contents pieces, (∀ c ∈ text, c < graphemeMergeFloor) ∧
      countOf unicode text = text.length := by
    intro text htext
    obtain ⟨_, piece, hpiece, rfl⟩ := mem_contents.mp htext
    obtain ⟨hlow, hcount⟩ := (hwf piece hpiece).plain (hall piece hpiece)
    rw [lossy_ascii hlow] at hcount ⊢
    refine ⟨fun c hc => ?_, by rw [hcount, List.length_map]⟩
    obtain ⟨b, hb, rfl⟩ := List.mem_map.mp hc
    exact (asciiChar_facts (hlow b hb)).1
  have hkept := hjoinable.2
  rw [hascii] at hkept
  have hsum := countOf_plain (fun text htext => (mem_contents.mp htext).1)
    (fun text htext => (hplain text htext).1) (fun c hc => by cases hc) hkept
  have hnil : countOf unicode [] = 0 := rfl
  rw [List.nil_append, hnil, Int.zero_add] at hsum
  exact ⟨hsum.trans (sum_counts hwf).symm,
    hsum.trans (sum_countOf fun text htext => (hplain text htext).2)⟩

/-- What is put together from pieces, once it is counted right. -/
theorem wellFormed_together {count : Int} {noBidi : Bool}
    (hwf : ∀ piece ∈ pieces, WellFormed unicode piece) (hjoinable : Joinable unicode pieces)
    (hcount : pieces.flatMap (·.content) ≠ [] →
      count = countOf unicode (contents pieces).flatten)
    (hnoBidi : noBidi = true → pieces.all isAscii = true ∨ pieces.all hasNoBidiControls = true) :
    WellFormed unicode (allocTextWithHeader (pieces.flatMap (·.content)) count
      (inheritedFlags (pieces.all isAscii) noBidi)) := by
  obtain ⟨hlossy, hsome⟩ := lossy_pieces hjoinable.1
  by_cases hempty : pieces.flatMap (·.content) = []
  · unfold allocTextWithHeader
    rw [if_pos hempty]
    exact wellFormed_empty unicode
  · have hascii : pieces.all isAscii = true → ∀ b ∈ pieces.flatMap (·.content), b < 128 := by
      intro hall b hb
      obtain ⟨piece, hpiece, hb⟩ := List.mem_flatMap.mp hb
      exact ((hwf piece hpiece).plain (List.all_eq_true.mp hall piece hpiece)).1 b hb
    apply wellFormed_allocTextWithHeader
    refine ⟨?_, fun _ => hsome, fun hflag => ⟨hascii hflag, ?_⟩, fun hflag c hc => ?_⟩
    · rw [hlossy]
      exact hcount hempty
    · rw [hlossy]
      apply length_graphemes_eq_iff.mp
      exact Int.ofNat.inj (count_of_ascii hwf hjoinable hflag).2
    · rcases hnoBidi hflag with hall | hall
      · exact noBidi_ascii (hascii hall) c hc
      · rw [hlossy] at hc
        obtain ⟨text, htext, hc⟩ := List.mem_flatten.mp hc
        obtain ⟨hne, piece, hpiece, rfl⟩ := mem_contents.mp htext
        have hpart := List.all_eq_true.mp hall piece hpiece
        unfold hasNoBidiControls at hpart
        rw [Bool.or_eq_true, decide_eq_true_iff] at hpart
        rcases hpart with hnil | hpart
        · exact absurd (lossy_eq_nil_iff.mpr hnil) hne
        · exact (hwf piece hpiece).noBidi hpart c hc

variable {left right separator : QnSlice} {parts : List QnSlice}

/-- `concat_header`, the two sides as their headers have them. -/
def headerOfConcat (unicode : Unicode) (left right : QnSlice) : Int × Bool :=
  concatHeader unicode left (textHeaderOf left).count (isAscii left) right
    (textHeaderOf right).count (isAscii right)

theorem textConcat_eq (unicode : Unicode) (left right : QnSlice) :
    textConcat unicode left right =
      allocTextWithHeader (left.content ++ right.content) (headerOfConcat unicode left right).1
        (inheritedFlags (headerOfConcat unicode left right).2
          ((headerOfConcat unicode left right).2 ||
            (hasNoBidiControls left && hasNoBidiControls right))) := rfl

@[simp] theorem content_textConcat (unicode : Unicode) (left right : QnSlice) :
    (textConcat unicode left right).content = left.content ++ right.content := by
  rw [textConcat_eq, content_allocTextWithHeader]

theorem seamCorrected_ascii {lCount rCount : Int} {lAscii rAscii : Bool} (hleft : front ≠ [])
    (hright : text ≠ []) (h : (lAscii && rAscii) = false) :
    (seamCorrected unicode front lCount lAscii text rCount rAscii).2 = false := by
  unfold seamCorrected
  rw [if_neg hleft, if_neg hright]
  split
  · exact h
  · dsimp only
    rw [h, Bool.false_and]

theorem headerOfConcat_ascii (unicode : Unicode) (left right : QnSlice) :
    (headerOfConcat unicode left right).2 = (isAscii left && isAscii right) := by
  unfold headerOfConcat concatHeader
  by_cases hleft : left.content = []
  · rw [if_pos hleft]
    simp [isAscii, hleft]
  · rw [if_neg hleft]
    by_cases hright : right.content = []
    · rw [if_pos hright]
      simp [isAscii, hright]
    · rw [if_neg hright]
      by_cases hascii : (isAscii left && isAscii right) = true
      · rw [if_pos hascii, hascii]
      · rw [if_neg hascii]
        rw [Bool.not_eq_true] at hascii
        rw [hascii, textStr_eq, textStr_eq]
        exact seamCorrected_ascii (fun h => hleft (lossy_eq_nil_iff.mp h))
          (fun h => hright (lossy_eq_nil_iff.mp h)) hascii

theorem contents_pair (hleft : left.content ≠ []) (hright : right.content ≠ []) :
    contents [left, right] = [lossy left.content, lossy right.content] := by
  rw [contents_cons, if_neg hleft, contents_cons, if_neg hright]
  rfl

theorem headerOfConcat_count (hleft : WellFormed unicode left) (hright : WellFormed unicode right)
    (hjoinable : Joinable unicode [left, right]) :
    (headerOfConcat unicode left right).1 = countOf unicode (contents [left, right]).flatten := by
  have hwf : ∀ piece ∈ [left, right], WellFormed unicode piece := by
    intro piece hpiece
    rcases List.mem_pair.mp hpiece with rfl | rfl
    · exact hleft
    · exact hright
  have hnil : countOf unicode [] = 0 := rfl
  unfold headerOfConcat concatHeader
  by_cases hempty : left.content = []
  · rw [if_pos hempty, contents_cons, if_pos hempty, contents_cons, hright.count]
    split
    case isTrue hempty' =>
      rw [hempty', lossy_nil]
      rfl
    case isFalse => exact congrArg (countOf unicode) (List.append_nil _).symm
  · rw [if_neg hempty]
    by_cases hempty' : right.content = []
    · rw [if_pos hempty', contents_cons, if_neg hempty, contents_cons, if_pos hempty', hleft.count]
      exact congrArg (countOf unicode) (List.append_nil _).symm
    · rw [if_neg hempty']
      by_cases hascii : (isAscii left && isAscii right) = true
      · have hall : [left, right].all isAscii = true := by
          rw [List.all_cons, List.all_cons, List.all_nil, Bool.and_true]
          exact hascii
        rw [if_pos hascii, (count_of_ascii hwf hjoinable hall).1]
        simp
      · rw [if_neg hascii, textStr_eq, textStr_eq, hleft.count, hright.count]
        have hkept := hjoinable.2
        rw [contents_pair hempty hempty'] at hkept ⊢
        have hseam := hkept.2.2.2.1
        rw [List.nil_append] at hseam
        rw [seamCorrected_count (fun h => hempty (lossy_eq_nil_iff.mp h))
          (fun h => hempty' (lossy_eq_nil_iff.mp h)) hseam]
        simp

/-- `+` makes a well-formed text of two that can be put together. -/
theorem wellFormed_textConcat (hleft : WellFormed unicode left)
    (hright : WellFormed unicode right) (hjoinable : Joinable unicode [left, right]) :
    WellFormed unicode (textConcat unicode left right) := by
  have hwf : ∀ piece ∈ [left, right], WellFormed unicode piece := by
    intro piece hpiece
    rcases List.mem_pair.mp hpiece with rfl | rfl
    · exact hleft
    · exact hright
  have hascii := headerOfConcat_ascii unicode left right
  have hall : [left, right].all isAscii = (isAscii left && isAscii right) := by
    rw [List.all_cons, List.all_cons, List.all_nil, Bool.and_true]
  have hbytes : [left, right].flatMap (·.content) = left.content ++ right.content := by simp
  have hcount := headerOfConcat_count hleft hright hjoinable
  rw [textConcat_eq, hascii, ← hall, ← hbytes]
  apply wellFormed_together hwf hjoinable (fun _ => hcount)
  intro hnoBidi
  rw [Bool.or_eq_true] at hnoBidi
  refine hnoBidi.imp_right fun h => ?_
  rw [List.all_cons, List.all_cons, List.all_nil, Bool.and_true]
  exact h

/-- Nothing changes behind no text. -/
theorem ripples_nil (text : List Char) : ripples unicode.classOf [] text = false := by
  unfold ripples ripplesExtended ripplesIndicators
  have hodd : oddIndicators [] = false := rfl
  rw [hodd, Bool.false_and, Bool.false_and, Bool.or_false]
  dsimp only
  split
  · rfl
  · generalize joins _ _ = joined
    cases joined <;> simp

/-- A text that begins below the floor changes nothing behind its first cluster. -/
theorem ripples_of_plain {before : List GraphemeClass} {c : Char} (hc : c < graphemeMergeFloor) :
    ripples unicode.classOf before (c :: text) = false := by
  have hall : ∀ k ∈ [GraphemeClass.cr, .lf, .control, .pictographic, .other],
      k.isExtender = false ∧ k ≠ .regionalIndicator := by decide
  obtain ⟨hextender, hindicator⟩ := hall _ (unicode.below_floor c hc)
  unfold ripples
  rw [ripplesExtended_of_not hextender, ripplesIndicators_of_not (decide_eq_false hindicator)]
  rfl

theorem seamsKept_singleton (unicode : Unicode) (ascii : Bool) (text : List Char) :
    SeamsKept unicode ascii [] [text] :=
  ⟨ripples_nil text, fun _ h => (nomatch h.1), fun h => absurd rfl h, trivial⟩

/-- A carriage return and a line feed are one cluster. -/
theorem countOf_crlf (unicode : Unicode) (text : List Char)
    (hlast : front.getLast? = some '\r') :
    countOf unicode (front ++ '\n' :: text) + 1 =
      countOf unicode front + countOf unicode ('\n' :: text) := by
  have hlf : unicode.classOf '\n' = .lf := (unicode.classOf_lf '\n').mpr rfl
  have hcr : unicode.classOf '\r' = .cr := (unicode.classOf_cr '\r').mpr rfl
  have hhead := head?_after unicode [] hlast
  have hjoins : joins (after unicode.classOf [] front) (unicode.classOf '\n') = true := by
    cases hafter : after unicode.classOf [] front with
    | nil =>
      rw [hafter] at hhead
      cases hhead
    | cons k before =>
      rw [hafter, hcr] at hhead
      obtain rfl : k = .cr := Option.some.inj hhead
      rw [hlf]
      rfl
  have halone : joins [] (unicode.classOf '\n') = false := rfl
  have hcontrol : (unicode.classOf '\n').isControl = true := by
    rw [hlf]
    rfl
  have hcontext : context (unicode.classOf '\n' :: after unicode.classOf [] front) =
      context [unicode.classOf '\n'] := context_cons_of_isControl hcontrol
  rw [countOf_append, countOf_eq_startsFrom unicode ('\n' :: text), startsFrom_cons_of_joins hjoins,
    startsFrom_cons_of_not_joins halone, startsFrom_congr hcontext]
  omega

/-- Texts of well-formed UTF-8 can be put together exactly if `+` makes a well-formed text of
them. -/
theorem wellFormed_textConcat_iff (hleft : WellFormed unicode left)
    (hright : WellFormed unicode right) (hvalid : (decode? left.content).isSome)
    (hvalid' : (decode? right.content).isSome) :
    WellFormed unicode (textConcat unicode left right) ↔ Joinable unicode [left, right] := by
  refine ⟨fun h => ⟨fun piece hpiece => ?_, ?_⟩, wellFormed_textConcat hleft hright⟩
  · rcases List.mem_pair.mp hpiece with rfl | rfl
    · exact hvalid
    · exact hvalid'
  have hall : [left, right].all isAscii = (isAscii left && isAscii right) := by
    rw [List.all_cons, List.all_cons, List.all_nil, Bool.and_true]
  by_cases hempty : left.content = []
  · rw [contents_cons, if_pos hempty, contents_cons]
    split
    · trivial
    · exact seamsKept_singleton unicode _ _
  by_cases hempty' : right.content = []
  · rw [contents_cons, if_neg hempty, contents_cons, if_pos hempty']
    exact seamsKept_singleton unicode _ _
  have hne : lossy left.content ≠ [] := fun h => hempty (lossy_eq_nil_iff.mp h)
  obtain ⟨c, text, htext⟩ := List.exists_cons_of_ne_nil
    fun h => hempty' (lossy_eq_nil_iff.mp h)
  have hbytes : left.content ++ right.content ≠ [] := List.append_ne_nil_of_left_ne_nil hempty _
  -- the count in the header, against the clusters of what it stands before
  have hcount : (headerOfConcat unicode left right).1 =
      countOf unicode (lossy left.content ++ lossy right.content) := by
    have hheader := h.count
    rw [textConcat_eq, allocTextWithHeader, if_neg hbytes] at hheader
    rw [← lossy_append hvalid]
    exact hheader
  unfold headerOfConcat concatHeader at hcount
  rw [if_neg hempty, if_neg hempty', hleft.count, hright.count, textStr_eq, textStr_eq] at hcount
  rw [contents_pair hempty hempty', hall]
  refine ⟨ripples_nil _, fun _ h => (nomatch h.1), fun _ h => (nomatch h), ?_⟩
  rw [List.nil_append]
  by_cases hascii : (isAscii left && isAscii right) = true
  · rw [if_pos hascii] at hcount
    obtain ⟨hlow, _⟩ := hright.plain (Bool.and_eq_true_iff.mp hascii).2
    have hc : c < graphemeMergeFloor := by
      have hmem : c ∈ lossy right.content := by
        rw [htext]
        exact List.mem_cons_self
      rw [lossy_ascii hlow] at hmem
      obtain ⟨b, hb, rfl⟩ := List.mem_map.mp hmem
      exact (asciiChar_facts (hlow b hb)).1
    rw [htext] at hcount ⊢
    refine ⟨ripples_of_plain hc, fun _ hcrlf => ?_, fun h => absurd rfl h, trivial⟩
    obtain rfl : c = '\n' := Option.some.inj hcrlf.2
    have hone := countOf_crlf unicode text hcrlf.1
    omega
  · rw [if_neg hascii] at hcount
    refine ⟨?_, fun h => absurd h hascii, fun h => absurd rfl h, trivial⟩
    unfold seamCorrected at hcount
    rw [if_neg hne, htext, if_neg (List.cons_ne_nil c text)] at hcount
    rw [htext]
    split at hcount
    case isTrue hnever =>
      unfold neverMerges at hnever
      rw [Bool.and_eq_true, Bool.and_eq_true, decide_eq_true_iff, decide_eq_true_iff] at hnever
      exact ripples_of_plain hnever.1.2
    case isFalse =>
      exact (countOf_window (trails_lastGrapheme unicode hne) (List.cons_ne_nil c text)).mp
        hcount.symm

/-- The fold passes over empty pieces. -/
theorem foldl_contents (hwf : ∀ piece ∈ pieces, WellFormed unicode piece)
    (acc : Option (Int × List Char)) :
    pieces.foldl
        (fun acc piece => foldSeam unicode acc (textStr piece) (textHeaderOf piece).count) acc =
      (contents pieces).foldl (fun acc text => foldSeam unicode acc text (countOf unicode text))
        acc := by
  induction pieces generalizing acc with
  | nil => rfl
  | cons piece pieces ih =>
    have hcount := (hwf piece List.mem_cons_self).count
    have hrest := ih fun p hp => hwf p (List.mem_cons_of_mem _ hp)
    rw [List.foldl_cons, hrest, contents_cons, textStr_eq, hcount]
    split
    case isTrue hempty =>
      rw [hempty, lossy_nil]
      rfl
    case isFalse => rw [List.foldl_cons]

theorem joinCountWithSeams_eq (hwf : ∀ piece ∈ pieces, WellFormed unicode piece)
    (hkept : SeamsKept unicode false [] (contents pieces)) :
    joinCountWithSeams unicode pieces = countOf unicode (contents pieces).flatten := by
  unfold joinCountWithSeams
  rw [foldl_contents hwf]
  have hne : ∀ text ∈ contents pieces, text ≠ [] := fun text htext => (mem_contents.mp htext).1
  cases htexts : contents pieces with
  | nil => rfl
  | cons text texts =>
    rw [htexts] at hkept hne
    have htext := hne text List.mem_cons_self
    obtain ⟨trailing', hrun⟩ := foldSeam_run
      (fun t ht => hne t (List.mem_cons_of_mem _ ht)) htext hkept.2.2.2
      (fun _ => trails_lastGrapheme unicode htext)
    rw [List.foldl_cons, foldSeam, if_neg htext]
    dsimp only
    rw [hrun]
    rfl

theorem mem_of_mem_intersperse {α : Type*} {a separator : α} {parts : List α}
    (h : a ∈ parts.intersperse separator) : a = separator ∨ a ∈ parts := by
  induction parts with
  | nil => cases h
  | cons part parts ih =>
    cases parts with
    | nil => exact .inr h
    | cons next parts =>
      rw [List.intersperse_cons_cons, List.mem_cons, List.mem_cons] at h
      rcases h with rfl | rfl | h
      · exact .inr List.mem_cons_self
      · exact .inl rfl
      · exact (ih h).imp_right fun hmem => List.mem_cons_of_mem _ hmem

/-- `join` makes a well-formed text of pieces that can be put together. -/
theorem wellFormed_textJoin (hparts : ∀ part ∈ parts, WellFormed unicode part)
    (hseparator : WellFormed unicode separator)
    (hjoinable : Joinable unicode (parts.intersperse separator)) :
    WellFormed unicode (textJoin unicode parts separator) := by
  have hwf : ∀ piece ∈ parts.intersperse separator, WellFormed unicode piece := by
    intro piece hpiece
    rcases mem_of_mem_intersperse hpiece with rfl | hpiece
    · exact hseparator
    · exact hparts piece hpiece
  unfold textJoin
  apply wellFormed_together hwf hjoinable
  · intro _
    split
    case isTrue hascii => exact (count_of_ascii hwf hjoinable hascii).1.symm
    case isFalse hascii =>
      have hkept := hjoinable.2
      rw [Bool.not_eq_true] at hascii
      rw [hascii] at hkept
      exact joinCountWithSeams_eq hwf hkept
  · intro hnoBidi
    exact .inr hnoBidi

/-! ### Every text of a program -/

/-- Texts are put together only where they can be. -/
def Operation.Meets (unicode : Unicode) : Operation → Prop
  | concat left right => Joinable unicode [left, right]
  | join parts separator => Joinable unicode (parts.intersperse separator)
  | _ => True

/-- What an operation makes of well-formed texts. -/
theorem wellFormed_results {op : Operation} {made : List QnSlice} (hmeets : op.Meets unicode)
    (hoperands : ∀ slice ∈ op.operands, WellFormed unicode slice)
    (hmade : op.results unicode = some made) : ∀ slice ∈ made, WellFormed unicode slice := by
  have hone : ∀ {result : QnSlice}, WellFormed unicode result → some [result] = some made →
      ∀ slice ∈ made, WellFormed unicode slice := by
    intro result hresult hsome slice hslice
    rw [← Option.some.inj hsome] at hslice
    rwa [List.mem_singleton.mp hslice]
  have hfallible : ∀ {outcome : Except ReplaceError QnSlice},
      (∀ result, outcome = .ok result → WellFormed unicode result) →
      outcome.toOption.map ([·]) = some made → ∀ slice ∈ made, WellFormed unicode slice := by
    intro outcome houtcome hsome
    cases outcome with
    | error => cases hsome
    | ok result => exact hone (houtcome result rfl) hsome
  cases op with
  | literal bytes => exact hone (wellFormed_literalText unicode bytes) hmade
  | received bytes => exact hone (wellFormed_allocText unicode bytes) hmade
  | concat left right =>
    have hleft := hoperands left List.mem_cons_self
    have hright := hoperands right (List.mem_cons_of_mem _ List.mem_cons_self)
    exact hone (wellFormed_textConcat hleft hright hmeets) hmade
  | join parts separator =>
    have hseparator := hoperands separator List.mem_cons_self
    have hparts := fun part hpart => hoperands part (List.mem_cons_of_mem _ hpart)
    exact hone (wellFormed_textJoin hparts hseparator hmeets) hmade
  | slice text start stop =>
    exact hone (wellFormed_textSlice (hoperands text List.mem_cons_self) start stop) hmade
  | «at» text index =>
    exact hone (wellFormed_textAt (hoperands text List.mem_cons_self) index) hmade
  | graphemes text =>
    rw [← Option.some.inj hmade]
    exact wellFormed_textArray unicode _
  | split text separator =>
    rw [← Option.some.inj hmade]
    exact wellFormed_textSplit unicode text separator
  | replace text from_ to_ count =>
    refine hfallible (fun result hresult => ?_) hmade
    unfold textReplace at hresult
    cases hreplaced : replaceText (textStr text) (textStr from_) (textStr to_) count with
    | error => rw [hreplaced] at hresult; cases hresult
    | ok replaced =>
      rw [hreplaced] at hresult
      cases hresult
      exact wellFormed_allocText unicode _
  | replaceAll text from_ to_ =>
    refine hfallible (fun result hresult => ?_) hmade
    unfold textReplaceAll at hresult
    split at hresult
    · cases hresult
    · cases hresult
      exact wellFormed_allocText unicode _
  | trimStart text => exact hone (wellFormed_allocText unicode _) hmade
  | trimEnd text => exact hone (wellFormed_allocText unicode _) hmade
  | toUpper text => exact hone (wellFormed_allocText unicode _) hmade
  | toLower text => exact hone (wellFormed_allocText unicode _) hmade

def AllWellFormed (unicode : Unicode) (store : List QnSlice) : Prop :=
  ∀ slice ∈ store, WellFormed unicode slice

theorem allWellFormed_step {op : Operation} {store store' : List QnSlice}
    (hstore : AllWellFormed unicode store) (hmeets : op.Meets unicode)
    (hstep : step unicode op store = some store') : AllWellFormed unicode store' := by
  unfold step at hstep
  rw [Option.ite_none_right_eq_some] at hstep
  obtain ⟨hoperands, hstep⟩ := hstep
  obtain ⟨made, hmade, rfl⟩ := Option.map_eq_some_iff.mp hstep
  intro slice hslice
  rcases List.mem_append.mp hslice with hslice | hslice
  · exact hstore slice hslice
  · exact wellFormed_results hmeets (fun operand hop => hstore operand (hoperands hop)) hmade slice
      hslice

/-- Headers are right when a text is allocated, and in every program that puts texts together only
where they can be. -/
theorem texts_wellFormed (unicode : Unicode) :
    (∀ bytes, WellFormed unicode (allocText unicode bytes) ∧
        WellFormed unicode (literalText unicode bytes)) ∧
      ∀ start store, AllWellFormed unicode start →
        Run (step unicode) (fun op _ => op.Meets unicode) start store →
          AllWellFormed unicode store := by
  refine ⟨fun bytes => ⟨wellFormed_allocText unicode bytes, wellFormed_literalText unicode bytes⟩,
    fun start store hstart hrun => ?_⟩
  exact hrun.invariant hstart fun op s s' hs hmeets hstep => allWellFormed_step hs hmeets hstep

/-! ### Texts that cannot be put together -/

/-- The tables for Latin text with combining marks, flags and the joiner. -/
def latin : Unicode where
  classOf c :=
    if c = '\r' then .cr
    else if c = '\n' then .lf
    else if c.toNat < 0x20 ∨ (0x7F ≤ c.toNat ∧ c.toNat < 0xA0) ∨ c.toNat = 0xAD then .control
    else if c.toNat = 0xA9 ∨ c.toNat = 0xAE then .pictographic
    else if 0x300 ≤ c.toNat ∧ c.toNat < 0x370 then .extend .extend
    else if c.toNat = 0x200D then .zwj
    else if 0x1F1E6 ≤ c.toNat ∧ c.toNat ≤ 0x1F1FF then .regionalIndicator
    else .other
  classOf_cr c := by
    constructor
    · intro h
      by_contra hne
      rw [if_neg hne] at h
      split_ifs at h
    · rintro rfl
      rfl
  classOf_lf c := by
    constructor
    · intro h
      by_contra hne
      split_ifs at h
    · rintro rfl
      rfl
  below_floor c h := by
    have hlow : c.toNat < 0x300 := h
    split_ifs <;> first | decide | omega
  toUppercase text := text.map Char.toUpper
  toLowercase text := text.map Char.toLower

/-- A text received from a socket that is no UTF-8. -/
def illFormed : QnSlice := allocText latin [0xFF]

theorem not_wellFormed_concat_illFormed :
    ¬ WellFormed latin (textConcat latin illFormed illFormed) := by
  intro h
  have hnone : decodeChar? [0xFF, 0xFF] = none := by decide
  have hcontent : (textConcat latin illFormed illFormed).content = [0xFF, 0xFF] := rfl
  have hflag : (textHeaderOf (textConcat latin illFormed illFormed)).flags.validUtf8 = true := rfl
  have hvalid := h.valid hflag
  rw [hcontent, decode?, hnone] at hvalid
  cases hvalid

/-- Put together without further ado, texts get headers that are wrong. -/
theorem illFormed_concat :
    ¬ ∀ unicode : Unicode,
      (∀ bytes, WellFormed unicode (allocText unicode bytes) ∧
          WellFormed unicode (literalText unicode bytes)) ∧
        ∀ start store, AllWellFormed unicode start → Reachable (step unicode) start store →
          AllWellFormed unicode store := by
  intro h
  have hreceived : Reachable (step latin) [] [illFormed] :=
    .next (.received [0xFF]) .start trivial rfl
  have hconcat : Reachable (step latin) [] [illFormed, textConcat latin illFormed illFormed] := by
    refine .next (.concat illFormed illFormed) hreceived trivial ?_
    unfold step
    rw [if_pos (by simp [Operation.operands])]
    rfl
  have hall := (h latin).2 [] _ (fun slice hslice => by cases hslice) hconcat
  exact not_wellFormed_concat_illFormed (hall _ (by simp))

theorem joinable_accent :
    Joinable latin [allocText latin (encode ['e']), allocText latin (encode ['\u0301'])] := by
  have hleft : (allocText latin (encode ['e'])).content = encode ['e'] := rfl
  have hright : (allocText latin (encode ['\u0301'])).content = encode ['\u0301'] := rfl
  constructor
  · intro piece hpiece
    rcases List.mem_pair.mp hpiece with rfl | rfl
    · exact isSome_decode?_encode ['e']
    · exact isSome_decode?_encode ['\u0301']
  · have hcontents :
        contents [allocText latin (encode ['e']), allocText latin (encode ['\u0301'])] =
          [['e'], ['\u0301']] := by
      rw [contents_pair (by rw [hleft]; decide) (by rw [hright]; decide), hleft, hright,
        lossy_encode, lossy_encode]
    rw [hcontents]
    refine ⟨by decide, fun _ => by decide, fun _ h => ?_, by decide, fun _ => by decide,
      fun h => absurd rfl h, trivial⟩
    cases h

/-- A letter and the accent put behind it. -/
theorem texts_wellFormed_accent :
    AllWellFormed latin [allocText latin (encode ['e']), allocText latin (encode ['\u0301']),
      textConcat latin (allocText latin (encode ['e'])) (allocText latin (encode ['\u0301']))] := by
  have hletter :
      Run (step latin) (fun op _ => op.Meets latin) [] [allocText latin (encode ['e'])] :=
    .next (.received (encode ['e'])) .start trivial rfl
  have haccent : Run (step latin) (fun op _ => op.Meets latin) []
      [allocText latin (encode ['e']), allocText latin (encode ['\u0301'])] :=
    .next (.received (encode ['\u0301'])) hletter trivial rfl
  refine (texts_wellFormed latin).2 [] _ (fun slice hslice => by cases hslice) ?_
  refine .next (.concat _ _) haccent joinable_accent ?_
  unfold step
  rw [if_pos (by simp [Operation.operands])]
  rfl

end Quilon.Text
