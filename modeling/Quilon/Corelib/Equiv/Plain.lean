import Mathlib.Data.List.Forall2
import Quilon.Corelib.Equiv.Text
import Quilon.Runtime.Equiv.Matching

/-!
# Texts whose characters are clusters

Below the floor, and without carriage returns, each character is a cluster of its own, so an index
into a text counts characters.  `Holds` says that a text is of such characters; each method keeps
it, and answers what the same method answers for the list of characters.
-/

namespace Quilon.Text

open Utf8

/-- Among others like it, the character is a cluster of its own. -/
def IsPlain (c : Char) : Prop := c < graphemeMergeFloor ∧ c ≠ '\r'

instance decidableIsPlain (c : Char) : Decidable (IsPlain c) :=
  inferInstanceAs (Decidable (_ ∧ _))

/-- The text holds the characters, each a cluster of its own. -/
structure Holds (unicode : Unicode) (text : QnSlice) (chars : List Char) : Prop where
  wellFormed : WellFormed unicode text
  content : text.content = encode chars
  plain : ∀ c ∈ chars, IsPlain c

variable {unicode : Unicode} {text other sep : QnSlice} {chars chars' : List Char}

theorem holds_literal (unicode : Unicode) {written : String}
    (h : ∀ c ∈ written.toList, IsPlain c) :
    Holds unicode (literal unicode written) written.toList :=
  ⟨wellFormed_literalText unicode _, rfl, h⟩

/-- Two characters like this are not joined. -/
theorem apart_plain {front back : List Char} (hfront : ∀ c ∈ front, IsPlain c)
    (hback : ∀ c ∈ back, IsPlain c) : Apart unicode.classOf front back := by
  intro c hc
  have hplain := hback c (List.mem_of_mem_head? hc)
  cases hlast : front.getLast? with
  | none =>
    rw [List.getLast?_eq_none_iff] at hlast
    rw [hlast]
    rfl
  | some last =>
    have hlastPlain := hfront last (List.mem_of_getLast? hlast)
    apply joins_of_neverMerges hlast
    unfold neverMerges
    simp [hlastPlain.1, hlastPlain.2, hplain.1]

/-! ### Splitting at one character -/

variable {c : Char} {front back : List Char}

theorem splitOn_of_notMem (h : c ∉ chars) (limit : Nat) : splitOn [c] limit chars = [chars] := by
  cases limit with
  | zero => rfl
  | succ limit => rw [splitOn, firstIndexOf_singleton, if_neg h]

theorem splitOn_append_cons (h : c ∉ front) (limit : Nat) :
    splitOn [c] (limit + 1) (front ++ c :: back) = front :: splitOn [c] limit back := by
  have hfound := @firstIndexOf_append_of_notMem _ [] _ c front back h
  rw [List.nil_append] at hfound
  rw [splitOn, hfound]
  show (front ++ c :: back).take front.length ::
    splitOn [c] limit ((front ++ c :: back).drop (front.length + 1)) = _
  rw [List.take_left, ← List.drop_drop, List.drop_left]
  rfl

/-- With enough fuel every piece is cut off. -/
theorem splitOn_eq {limit : Nat} (h : chars.length ≤ limit) :
    splitOn [c] limit chars = chars.splitOn c := by
  induction limit generalizing chars with
  | zero =>
    rw [List.length_eq_zero_iff.mp (Nat.le_zero.mp h)]
    rfl
  | succ limit ih =>
    by_cases hmem : c ∈ chars
    · obtain ⟨front, back, rfl, hfront⟩ := List.eq_append_cons_of_mem hmem
      have hback : back.length ≤ limit := by
        rw [List.length_append, List.length_cons] at h
        omega
      rw [splitOn_append_cons hfront, ih hback, List.splitOn_append_cons_self_of_not_mem hfront]
    · rw [splitOn_of_notMem hmem, List.splitOn_eq_singleton hmem]

theorem mem_of_mem_splitOn {needle piece : List Char} {limit : Nat}
    (h : piece ∈ splitOn needle limit chars) : ∀ c ∈ piece, c ∈ chars := by
  induction limit generalizing chars with
  | zero =>
    obtain rfl := List.mem_singleton.mp h
    exact fun c hc => hc
  | succ limit ih =>
    rw [splitOn] at h
    split at h
    · obtain rfl := List.mem_singleton.mp h
      exact fun c hc => hc
    · intro c hc
      rcases List.mem_cons.mp h with rfl | hrest
      · exact List.mem_of_mem_take hc
      · exact List.mem_of_mem_drop (ih hrest c hc)

/-! ### The methods -/

namespace Holds

theorem textStr_eq (h : Holds unicode text chars) : textStr text = chars := by
  rw [Text.textStr_eq, h.content, lossy_encode]

theorem clusters (h : Holds unicode text chars) :
    graphemesOf unicode chars = chars.map fun c => [c] := by
  have hlength := length_graphemes_of_below_floor unicode (fun c hc => (h.plain c hc).1)
    fun hcr => (h.plain _ hcr).2 rfl
  have hsingle := eq_map_singleton_flatten (length_graphemes_eq_iff.mp hlength)
  rwa [flatten_graphemes] at hsingle

theorem countOf_take (h : Holds unicode text chars) {k : Nat} (hk : k ≤ chars.length) :
    countOf unicode (chars.take k) = k := by
  have hplain : ∀ c ∈ chars.take k, IsPlain c := fun c hc => h.plain c (List.mem_of_mem_take hc)
  have hlength := length_graphemes_of_below_floor unicode (fun c hc => (hplain c hc).1)
    fun hcr => (hplain _ hcr).2 rfl
  unfold countOf
  rw [hlength, List.length_take, Nat.min_eq_left hk]

theorem length_eq (h : Holds unicode text chars) : text.length = chars.length := by
  rw [QnSlice.length_eq h.wellFormed, h.textStr_eq, h.clusters, List.length_map]

/-- What is found is counted by characters. -/
theorem indexOf_eq (h : Holds unicode text chars) (unicode' : Unicode) (written : String) :
    text.indexOf unicode (literal unicode' written) =
      some ((strFind chars written.toList).map fun index : Nat => (index : Int)) := by
  rw [QnSlice.indexOf_eq h.wellFormed, textStr_literal, h.textStr_eq, Option.some.injEq]
  cases hfound : strFind chars written.toList with
  | none => rfl
  | some index =>
    rw [Option.map_some, Option.map_some, h.countOf_take (strFind_le hfound)]

theorem slice_eq (h : Holds unicode text chars) {lo hi : Nat} (hle : lo ≤ hi)
    (hhi : hi ≤ chars.length) :
    ∃ part, text.slice unicode lo hi = some part ∧
      Holds unicode part ((chars.take hi).drop lo) := by
  refine ⟨_, QnSlice.slice_eq _ _ _ _, wellFormed_textSlice h.wellFormed _ _, ?_,
    fun c hc => h.plain c (List.mem_of_mem_take (List.mem_of_mem_drop hc))⟩
  have hlo : clamp lo chars.length = lo := by
    unfold clamp
    omega
  have hclamp : clamp hi chars.length = hi := by
    unfold clamp
    omega
  rw [content_textSlice h.wellFormed, h.textStr_eq, h.clusters, List.length_map, hlo, hclamp,
    ← List.map_take, ← List.map_drop, flatten_map_singleton]

theorem equals_iff (h : Holds unicode text chars) (h' : Holds unicode other chars') :
    text.equals other = true ↔ chars = chars' := by
  unfold QnSlice.equals
  rw [beq_iff_eq, h.content, h'.content]
  constructor
  · intro hbytes
    have hdecoded := congrArg lossy hbytes
    rwa [lossy_encode, lossy_encode] at hdecoded
  · exact congrArg encode

theorem append (h : Holds unicode text chars) (h' : Holds unicode other chars') :
    Holds unicode (text.append unicode other) (chars ++ chars') := by
  refine ⟨?_, ?_, ?_⟩
  · apply wellFormed_textConcat h.wellFormed h'.wellFormed
    constructor
    · intro piece hpiece
      rcases List.mem_pair.mp hpiece with rfl | rfl
      · rw [h.content]
        exact isSome_decode?_encode chars
      · rw [h'.content]
        exact isSome_decode?_encode chars'
    · have hcontents : contents [text, other] = [chars, chars'].filter (· ≠ []) := by
        unfold contents
        rw [List.map_cons, List.map_cons, List.map_nil, h.content, h'.content, lossy_encode,
          lossy_encode]
      rw [hcontents]
      apply seamsKept_of_seamless
      · exact fun text htext => of_decide_eq_true (List.mem_filter.mp htext).2
      · apply Seamless.filter
        have hnone : ∀ c ∈ ([] : List Char), IsPlain c := nofun
        have hfront : ∀ c ∈ [] ++ chars, IsPlain c := h.plain
        exact ⟨fun _ => apart_plain hnone h.plain, fun _ => apart_plain hfront h'.plain, trivial⟩
  · unfold QnSlice.append
    rw [content_textConcat, h.content, h'.content, encode_append]
  · intro c hc
    exact (List.mem_append.mp hc).elim (h.plain c) (h'.plain c)

theorem of_chars (unicode : Unicode) (h : ∀ c ∈ chars, IsPlain c) :
    Holds unicode (allocText unicode (encode chars)) chars :=
  ⟨wellFormed_allocText unicode _, content_allocText unicode _, h⟩

theorem toLower (h : Holds unicode text chars)
    (hlower : ∀ c ∈ unicode.toLowercase chars, IsPlain c) :
    Holds unicode (text.toLower unicode) (unicode.toLowercase chars) := by
  unfold QnSlice.toLower textToLower
  rw [h.textStr_eq]
  exact of_chars unicode hlower

/-- The pieces of a split at one character. -/
theorem split (h : Holds unicode text chars) {written : String} {c : Char}
    (hwritten : written.toList = [c]) :
    List.Forall₂ (Holds unicode) (text.split unicode (literal unicode written))
      (chars.splitOn c) := by
  have hpieces : text.split unicode (literal unicode written) =
      (chars.splitOn c).map fun piece => allocText unicode (encode piece) := by
    unfold QnSlice.split textSplit
    rw [textStr_literal, hwritten, if_neg (List.cons_ne_nil _ _), h.textStr_eq,
      ← splitOn_eq (Nat.le_refl _)]
    rfl
  rw [hpieces, List.forall₂_map_left_iff, List.forall₂_same]
  intro piece hpiece
  rw [← splitOn_eq (Nat.le_refl _)] at hpiece
  exact of_chars unicode fun c hc => h.plain c (mem_of_mem_splitOn hpiece c hc)

end Holds

end Quilon.Text
