import Quilon.Corelib.BlankLine
import Quilon.Corelib.Equiv.Text
import Quilon.Library.GraphemeCuts
import Quilon.Library.Utf8Ascii
import Quilon.Runtime.Equiv.Http

/-!
# The head of a message by index and by byte

`blankLineIndex` counts the clusters before the place `find_blank_line` finds, which is where a
cluster begins: a line feed that belongs to the cluster of a carriage return begins no earliest
blank line (`apart_blankLine`).  Each of the four spellings is two clusters, so the parts of the
text on both sides are those of the bytes, decoded (`blankLines_agree`).
-/

namespace Quilon.Http

open Text Utf8

variable {unicode : Unicode} {raw : QnSlice} {bytes front back spelling : List UInt8} {at_ n : Nat}

/-! ### The four spellings as characters -/

theorem ascii_of_mem_blankLineSpellings (h : spelling ∈ blankLineSpellings) :
    ∀ b ∈ spelling, b < 128 := by
  have hall : ∀ spelling ∈ blankLineSpellings, spelling.all (· < 128) = true := by decide
  intro b hb
  exact of_decide_eq_true (List.all_eq_true.mp (hall spelling h) b hb)

theorem classOf_cr' (unicode : Unicode) : unicode.classOf '\r' = .cr :=
  (unicode.classOf_cr _).mpr rfl

theorem classOf_lf' (unicode : Unicode) : unicode.classOf '\n' = .lf :=
  (unicode.classOf_lf _).mpr rfl

/-- A carriage return and a line feed are one cluster, so each spelling is two. -/
theorem length_graphemes_blankLine (unicode : Unicode) (h : spelling ∈ blankLineSpellings) :
    (graphemesOf unicode (spelling.map asciiChar)).length = 2 := by
  have hchars : asciiChar CR = '\r' ∧ asciiChar LF = '\n' := by decide
  unfold graphemesOf
  rw [length_graphemes]
  simp only [blankLineSpellings, List.mem_cons, List.not_mem_nil, or_false] at h
  rcases h with rfl | rfl | rfl | rfl <;>
    simp [hchars, startsFrom, classOf_cr', classOf_lf', joins, GraphemeClass.isControl]

/-- A carriage return joins nothing, and a line feed only a carriage return. -/
theorem joins_newline (before : List GraphemeClass) :
    joins before .cr = false ∧ (joins before .lf = true ↔ before.head? = some .cr) := by
  cases before with
  | nil => simp [joins]
  | cons last before => simp [joins, GraphemeClass.isControl]

theorem joins_of_lf {before : List GraphemeClass} (h : before.head? = some .lf)
    (next : GraphemeClass) : joins before next = false := by
  cases before with
  | nil => cases h
  | cons last before =>
    obtain rfl : last = .lf := Option.some.inj h
    simp [joins, GraphemeClass.isControl]

/-- Before an earliest blank line that begins with a line feed there is no carriage return. -/
theorem not_cr_before (h : IsBlankLine bytes at_ spelling) (hfirst : spelling.head? = some LF) :
    (lossy (bytes.take at_)).getLast? ≠ some '\r' := by
  intro hlast
  obtain ⟨text, htext⟩ := List.getLast?_eq_some_iff.mp hlast
  have hchar : asciiChar CR = '\r' := by decide
  rw [← hchar] at htext
  obtain ⟨front, back, hfront, -, hback⟩ := exists_of_lossy_eq (by decide) htext
  rw [lossy_eq_nil_iff] at hback
  subst hback
  have hlength : front.length + 1 = (bytes.take at_).length := by
    rw [hfront, List.length_append, List.length_singleton]
  have hle := h.end_le
  rw [List.length_take, Nat.min_eq_left (by omega)] at hlength
  -- Together with the carriage return the spelling is another one, which begins before it.
  have hcr : CR :: spelling <+: bytes.drop front.length := by
    have hsplit : bytes.drop front.length = CR :: bytes.drop at_ := by
      have hall := List.take_append_drop at_ bytes
      rw [hfront, List.append_assoc] at hall
      conv_lhs => rw [← hall]
      rw [List.drop_left]
      rfl
    rw [hsplit]
    exact List.cons_prefix_cons.mpr ⟨rfl, h.found⟩
  have hmem := h.mem
  simp only [blankLineSpellings, List.mem_cons, List.not_mem_nil, or_false] at hmem
  rcases hmem with rfl | rfl | rfl | rfl
  · cases hfirst
  · exact h.least [CR, LF, LF] (by decide) front.length (by omega) hcr
  · cases hfirst
  · exact h.least [CR, LF, CR, LF] (by decide) front.length (by omega) hcr

/-- No earliest blank line begins within the cluster of a carriage return. -/
theorem apart_blankLine (unicode : Unicode) (h : IsBlankLine bytes at_ spelling)
    (behind : List Char) :
    Apart unicode.classOf (lossy (bytes.take at_)) (spelling.map asciiChar ++ behind) := by
  intro c hc
  obtain ⟨first, rest, hspelling⟩ := List.exists_cons_of_ne_nil (blankLineSpellings_ne_nil h.mem)
  have hfirst : first = CR ∨ first = LF := by
    have hall : ∀ spelling ∈ blankLineSpellings,
        spelling.head? = some CR ∨ spelling.head? = some LF := by decide
    have hhead := hall spelling h.mem
    rwa [hspelling, List.head?_cons, Option.some.injEq, Option.some.injEq] at hhead
  rw [hspelling] at hc
  obtain rfl : asciiChar first = c := Option.some.inj hc
  rcases hfirst with rfl | rfl
  · show joins _ (unicode.classOf '\r') = false
    rw [classOf_cr']
    exact (joins_newline _).1
  · show joins _ (unicode.classOf '\n') = false
    rw [classOf_lf', ← Bool.not_eq_true, (joins_newline _).2]
    have hlast := not_cr_before h (by rw [hspelling]; rfl)
    cases htext : (lossy (bytes.take at_)).getLast? with
    | none =>
      rw [List.getLast?_eq_none_iff.mp htext]
      exact fun h => by cases h
    | some last =>
      rw [head?_after unicode [] htext]
      intro hclass
      rw [Option.some.injEq, unicode.classOf_cr] at hclass
      exact hlast (hclass ▸ htext)

theorem apart_behind (unicode : Unicode) (h : spelling ∈ blankLineSpellings)
    (before behind : List Char) :
    Apart unicode.classOf (before ++ spelling.map asciiChar) behind := by
  intro c _
  have hlast : ∀ spelling ∈ blankLineSpellings, (spelling.map asciiChar).getLast? = some '\n' := by
    decide
  refine joins_of_lf ?_ _
  have htext : (before ++ spelling.map asciiChar).getLast? = some '\n' := by
    rw [List.getLast?_append, hlast spelling h]
    rfl
  rw [head?_after unicode [] htext, classOf_lf']

/-- The clusters of a message with a blank line. -/
theorem graphemes_blankLine (unicode : Unicode) (h : IsBlankLine bytes at_ spelling) :
    graphemesOf unicode (lossy bytes) =
      graphemesOf unicode (lossy (bytes.take at_)) ++
        graphemesOf unicode (spelling.map asciiChar) ++
          graphemesOf unicode (lossy (bytes.drop (at_ + spelling.length))) := by
  have hne := blankLineSpellings_ne_nil h.mem
  obtain ⟨back, hback⟩ := h.found
  have hbytes : bytes = bytes.take at_ ++ spelling ++ back := by
    rw [List.append_assoc, hback, List.take_append_drop]
  have hbehind : bytes.drop (at_ + spelling.length) = back := by
    rw [← List.drop_drop, ← hback, List.drop_left]
  have hascii := ascii_of_mem_blankLineSpellings h.mem
  have hlossy := lossy_append_needle hascii hne (bytes.take at_) back
  rw [← hbytes] at hlossy
  rw [hbehind, hlossy]
  exact graphemes_of_apart (apart_blankLine unicode h _) (apart_behind unicode h.mem _ _)

/-! ### What the searches answer -/

/-- The answer of `foundOrEnd` for a spelling. -/
def foundIndex (unicode : Unicode) (raw : QnSlice) (spelling : List UInt8) : Int :=
  match findSubslice raw.content spelling with
  | some at_ => countOf unicode (lossy (raw.content.take at_))
  | none => raw.length

theorem foundOrEnd_eq (h : WellFormed unicode raw) (hspelling : spelling ∈ blankLineSpellings)
    {written : String} (hwritten : written.toList = spelling.map asciiChar) :
    foundOrEnd unicode raw (literal unicode written) = some (foundIndex unicode raw spelling) := by
  have hne := blankLineSpellings_ne_nil hspelling
  have hascii := ascii_of_mem_blankLineSpellings hspelling
  have hmap : spelling.map asciiChar ≠ [] := fun hnil => hne (List.map_eq_nil_iff.mp hnil)
  unfold foundOrEnd foundIndex
  rw [QnSlice.indexOf_eq h, textStr_literal, hwritten, textStr_eq, strFind, if_neg hmap]
  cases hfound : findSubslice raw.content spelling with
  | none =>
    have hnone := (firstIndexOf_lossy_eq_none_iff hascii hne).mpr hfound
    rw [hnone]
    rfl
  | some at_ =>
    have hindex := firstIndexOf_lossy hascii hne hfound
    obtain ⟨⟨back, hback⟩, -⟩ := (firstIndexOf_eq_some_iff hne).mp hfound
    have hlossy := lossy_append_needle hascii hne (raw.content.take at_) back
    rw [List.append_assoc, hback, List.take_append_drop, List.append_assoc] at hlossy
    rw [hindex]
    show some (countOf unicode ((lossy raw.content).take (lossy (raw.content.take at_)).length)) = _
    rw [hlossy, List.take_left]

/-- The blank line that is found has the least index. -/
theorem le_foundIndex (h : WellFormed unicode raw) (hblank : IsBlankLine raw.content at_ spelling)
    {other : List UInt8} (hother : other ∈ blankLineSpellings) :
    countOf unicode (lossy (raw.content.take at_)) ≤ foundIndex unicode raw other := by
  have hclusters := graphemes_blankLine unicode hblank
  unfold foundIndex
  cases hfound : findSubslice raw.content other with
  | none =>
    show _ ≤ raw.length
    rw [QnSlice.length_eq h, textStr_eq, hclusters, List.length_append, List.length_append]
    unfold countOf
    omega
  | some later =>
    have hother' := (firstIndexOf_eq_some_iff (blankLineSpellings_ne_nil hother)).mp hfound
    have hle : at_ ≤ later := by
      by_contra hlt
      exact hblank.least other hother later (by omega) hother'.1
    rcases Nat.lt_or_eq_of_le hle with hlt | rfl
    · obtain ⟨b, rest, hspelling⟩ :=
        List.exists_cons_of_ne_nil (blankLineSpellings_ne_nil hblank.mem)
      have hb : b < 128 :=
        ascii_of_mem_blankLineSpellings hblank.mem b (hspelling ▸ List.mem_cons_self)
      obtain ⟨back, hback⟩ := hblank.found
      have hlength : (raw.content.take at_).length = at_ := by
        have := hblank.end_le
        rw [List.length_take]
        omega
      have hmore := @lossy_take_ascii (raw.content.take at_) (rest ++ back) b later hb (by omega)
      rw [← List.cons_append, ← hspelling, hback, List.take_append_drop] at hmore
      show _ ≤ countOf unicode (lossy (raw.content.take later))
      rw [hmore]
      exact countOf_mono unicode _ _
    · exact Int.le_refl _

theorem foundIndex_of_isBlankLine (hblank : IsBlankLine raw.content at_ spelling) :
    foundIndex unicode raw spelling = countOf unicode (lossy (raw.content.take at_)) := by
  have hfound : findSubslice raw.content spelling = some at_ :=
    (firstIndexOf_eq_some_iff (blankLineSpellings_ne_nil hblank.mem)).mpr
      ⟨hblank.found, hblank.least spelling hblank.mem⟩
  unfold foundIndex
  rw [hfound]

/-- No spelling is found where no blank line is. -/
theorem findSubslice_eq_none (h : findBlankLine bytes = none)
    (hspelling : spelling ∈ blankLineSpellings) :
    findSubslice bytes spelling = none := by
  cases hfound : findSubslice bytes spelling with
  | none => rfl
  | some at_ =>
    have hcandidate : (at_, spelling.length) ∈ blankLineSpellings.filterMap fun spelling =>
        (findSubslice bytes spelling).map fun at_ => (at_, spelling.length) :=
      List.mem_filterMap.mpr ⟨spelling, hspelling, by rw [hfound]; rfl⟩
    have hsome := List.isSome_minOn?_of_mem (f := (·.1)) hcandidate
    unfold findBlankLine at h
    rw [h] at hsome
    cases hsome

/-- The least of the four answers. -/
theorem blankLineIndex_eq (h : WellFormed unicode raw) :
    blankLineIndex unicode raw = some
      (min (min (foundIndex unicode raw [CR, LF, CR, LF]) (foundIndex unicode raw [LF, LF]))
        (min (foundIndex unicode raw [CR, LF, LF]) (foundIndex unicode raw [LF, CR, LF]))) := by
  unfold blankLineIndex
  rw [foundOrEnd_eq h (show [CR, LF, CR, LF] ∈ blankLineSpellings by decide) (by decide),
    foundOrEnd_eq h (show [LF, LF] ∈ blankLineSpellings by decide) (by decide),
    foundOrEnd_eq h (show [CR, LF, LF] ∈ blankLineSpellings by decide) (by decide),
    foundOrEnd_eq h (show [LF, CR, LF] ∈ blankLineSpellings by decide) (by decide)]
  simp only [Option.bind_eq_bind, Option.bind_some, Option.pure_def, Option.some.injEq]
  split_ifs <;> omega

theorem blankLineIndex_none (h : WellFormed unicode raw)
    (hnone : findBlankLine raw.content = none) :
    blankLineIndex unicode raw = some raw.length := by
  have hindex : ∀ spelling ∈ blankLineSpellings, foundIndex unicode raw spelling = raw.length := by
    intro spelling hspelling
    unfold foundIndex
    rw [findSubslice_eq_none hnone hspelling]
  rw [blankLineIndex_eq h, hindex _ (by decide), hindex _ (by decide), hindex _ (by decide),
    hindex _ (by decide), Option.some.injEq]
  omega

theorem blankLineIndex_some (h : WellFormed unicode raw)
    (hblank : IsBlankLine raw.content at_ spelling) :
    blankLineIndex unicode raw = some (countOf unicode (lossy (raw.content.take at_))) := by
  have hle : ∀ other ∈ blankLineSpellings, _ ≤ foundIndex unicode raw other :=
    fun other hother => le_foundIndex h hblank hother
  have hfirst := hle [CR, LF, CR, LF] (by decide)
  have hsecond := hle [LF, LF] (by decide)
  have hthird := hle [CR, LF, LF] (by decide)
  have hfourth := hle [LF, CR, LF] (by decide)
  have hself := @foundIndex_of_isBlankLine unicode raw spelling at_ hblank
  have hmem := hblank.mem
  simp only [blankLineSpellings, List.mem_cons, List.not_mem_nil, or_false] at hmem
  rw [blankLineIndex_eq h, Option.some.injEq]
  rcases hmem with rfl | rfl | rfl | rfl <;> omega

/-! ### The two splits -/

/-- Head and body of a message by index are those by byte, decoded. -/
theorem blankLines_agree_of_wellFormed (h : WellFormed unicode raw) :
    ∃ index, blankLineIndex unicode raw = some index ∧
      (index < raw.length ↔ (findBlankLine raw.content).isSome) ∧
      ∀ at_ n, findBlankLine raw.content = some (at_, n) →
        blankLineEnd unicode raw = some (index + 2) ∧
        ∃ head body, raw.slice unicode 0 index = some head ∧
          raw.slice unicode (index + 2) raw.length = some body ∧
          head.content = encode (lossy (raw.content.take at_)) ∧
          body.content = encode (lossy (raw.content.drop (at_ + n))) := by
  cases hfound : findBlankLine raw.content with
  | none =>
    exact ⟨raw.length, blankLineIndex_none h hfound, by simp, fun _ _ hnone => by cases hnone⟩
  | some place =>
    obtain ⟨at_, n⟩ := place
    obtain ⟨spelling, rfl, hblank⟩ := isBlankLine_of_findBlankLine hfound
    have hindex := blankLineIndex_some h hblank
    have hclusters := graphemes_blankLine unicode hblank
    have htwo := length_graphemes_blankLine unicode hblank.mem
    rw [← textStr_eq] at hclusters
    have hlength : raw.length = countOf unicode (lossy (raw.content.take at_)) + 2 +
        countOf unicode (lossy (raw.content.drop (at_ + spelling.length))) := by
      rw [QnSlice.length_eq h, hclusters, List.length_append, List.length_append, htwo]
      rfl
    have hnonneg := QnSlice.countOf_nonneg unicode
      (lossy (raw.content.drop (at_ + spelling.length)))
    refine ⟨_, hindex, by simp; omega, ?_⟩
    intro at' n' hplace
    obtain ⟨rfl, rfl⟩ := Prod.mk.inj (Option.some.inj hplace)
    refine ⟨?_, _, _, QnSlice.slice_eq _ _ _ _, QnSlice.slice_eq _ _ _ _, ?_, ?_⟩
    · unfold blankLineEnd
      rw [hindex]
      show some (if _ then _ else _) = _
      rw [if_neg (by omega)]
    · have hhead := @QnSlice.content_slice_of_clusters unicode raw h []
        (graphemesOf unicode (lossy (raw.content.take at_)))
        (graphemesOf unicode (spelling.map asciiChar) ++
          graphemesOf unicode (lossy (raw.content.drop (at_ + spelling.length))))
        (by rw [hclusters, List.nil_append, List.append_assoc])
      rw [show (graphemesOf unicode (lossy (raw.content.take at_))).flatten = _ from
        flatten_graphemes _ _] at hhead
      rw [← hhead]
      congr 3
      exact (Int.zero_add _).symm
    · have hbody := @QnSlice.content_slice_of_clusters unicode raw h
        (graphemesOf unicode (lossy (raw.content.take at_)) ++
          graphemesOf unicode (spelling.map asciiChar))
        (graphemesOf unicode (lossy (raw.content.drop (at_ + spelling.length)))) []
        (by rw [hclusters, List.append_nil])
      rw [show (graphemesOf unicode (lossy (raw.content.drop (at_ + spelling.length)))).flatten = _
        from flatten_graphemes _ _] at hbody
      rw [← hbody, hlength, List.length_append, htwo]
      rfl

/-- **The two splits of a message agree.**  An index below the length is found exactly when a blank
line is; its end is two clusters further; and the text before and behind is what the bytes before
and behind are decoded to. -/
theorem blankLines_agree (unicode : Unicode) (raw : List UInt8) :
    ∃ index, blankLineIndex unicode (allocText unicode raw) = some index ∧
      (index < (allocText unicode raw).length ↔ (findBlankLine raw).isSome) ∧
      ∀ at_ n, findBlankLine raw = some (at_, n) →
        blankLineEnd unicode (allocText unicode raw) = some (index + 2) ∧
        ∃ head body, (allocText unicode raw).slice unicode 0 index = some head ∧
          (allocText unicode raw).slice unicode (index + 2) (allocText unicode raw).length =
            some body ∧
          head.content = encode (lossy (raw.take at_)) ∧
          body.content = encode (lossy (raw.drop (at_ + n))) := by
  have h := blankLines_agree_of_wellFormed (wellFormed_allocText unicode raw)
  rwa [content_allocText] at h

end Quilon.Http
