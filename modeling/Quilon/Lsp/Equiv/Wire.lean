import Quilon.Diagnostics.Equiv.SourceMap
import Quilon.Lexer.Equiv.TrojanSource
import Quilon.Lsp.Equiv.SemanticTokens

/-!
# Highlighting on the wire

What the server sends is read back as the protocol says (`decodeFrom`): each token's line, where it
begins on it and how long it is, in UTF-16 code units (`respond_decodes`).
-/

namespace Quilon.Lsp

open Lexer (Token charsBefore charsBefore_append)
open SourceMap (OneLine WholeLines lenUtf16 positionUtf16 positionUtf16_split utf16Length)

/-- A token as an editor shows it. -/
structure Mark where
  line : Nat
  start : Nat
  length : Nat
  tokenType : Nat
deriving DecidableEq

/-- What the numbers mean, behind a token that begins at `previous`. -/
def decodeFrom (previous : Nat × Nat) : List SemanticToken → List Mark
  | [] => []
  | token :: rest =>
    let line := previous.1 + token.deltaLine.toNat
    let start :=
      if token.deltaLine = 0 then previous.2 + token.deltaStart.toNat else token.deltaStart.toNat
    ⟨line, start, token.length.toNat, token.tokenType.toNat⟩ :: decodeFrom (line, start) rest

/-! ### Positions -/

/-- How many lines end in the text, and how many code units stand behind the last. -/
def positionBehind (front : List Char) : Nat × Nat :=
  (front.count '\n', utf16Length (front.rtakeWhile (· ≠ '\n')))

/-- Not before, line by line. -/
def NotAfter (p q : Nat × Nat) : Prop := p.1 < q.1 ∨ p.1 = q.1 ∧ p.2 ≤ q.2

theorem NotAfter.trans {p q r : Nat × Nat} (h : NotAfter p q) (h' : NotAfter q r) :
    NotAfter p r := by
  rw [NotAfter] at h h' ⊢
  omega

theorem utf16Length_append (front back : List Char) :
    utf16Length (front ++ back) = utf16Length front + utf16Length back := extent_append

theorem positionBehind_concat (front : List Char) (c : Char) :
    positionBehind (front ++ [c]) =
      if c = '\n' then ((positionBehind front).1 + 1, 0)
      else ((positionBehind front).1, (positionBehind front).2 + lenUtf16 c) := by
  rw [positionBehind, List.count_append, List.rtakeWhile_concat]
  by_cases hc : c = '\n'
  · subst hc
    rw [if_pos rfl]
    rfl
  · have hother : decide (c ≠ '\n') = true := decide_eq_true hc
    have hcount : List.count '\n' [c] = 0 := by
      rw [List.count_eq_zero, List.mem_singleton]
      exact Ne.symm hc
    rw [if_neg hc, if_pos hother, hcount, utf16Length_append]
    rfl

theorem notAfter_append (front mid : List Char) :
    NotAfter (positionBehind front) (positionBehind (front ++ mid)) := by
  induction mid using List.reverseRecOn with
  | nil =>
    rw [List.append_nil]
    exact Or.inr ⟨rfl, Nat.le_refl _⟩
  | append_singleton mid c ih =>
    refine ih.trans ?_
    rw [← List.append_assoc, positionBehind_concat, NotAfter]
    split
    · exact Or.inl (Nat.lt_succ_self _)
    · exact Or.inr ⟨rfl, Nat.le_add_right _ _⟩

/-- Text without a newline moves the position along the line. -/
theorem positionBehind_append (front : List Char) {text : List Char} (htext : '\n' ∉ text) :
    positionBehind (front ++ text) =
      ((positionBehind front).1, (positionBehind front).2 + utf16Length text) := by
  induction text using List.reverseRecOn with
  | nil =>
    rw [List.append_nil]
    rfl
  | append_singleton text c ih =>
    rw [List.mem_append, not_or] at htext
    have hc : c ≠ '\n' := fun h => htext.2 (by rw [h]; exact List.mem_singleton_self _)
    rw [← List.append_assoc, positionBehind_concat, if_neg hc, ih htext.1, utf16Length_append,
      ← Nat.add_assoc]
    rfl

theorem positionBehind_le (front : List Char) :
    (positionBehind front).1 + (positionBehind front).2 ≤ utf16Length front := by
  induction front using List.reverseRecOn with
  | nil => exact Nat.le_refl 0
  | append_singleton front c ih =>
    have hpos : 0 < lenUtf16 c := by
      rw [lenUtf16]
      split <;> decide
    rw [positionBehind_concat, utf16Length_append]
    have hone : utf16Length [c] = lenUtf16 c := rfl
    split <;> dsimp only <;> omega

/-- The position the server finds is the one behind the text before the offset. -/
theorem positionUtf16_eq (front back : List Char) :
    positionUtf16 (front ++ back) (extent Char.utf8Size front) =
      some (UInt32.ofNat (positionBehind front).1, UInt32.ofNat (positionBehind front).2) := by
  obtain ⟨head, tail, rfl, hhead, htail⟩ := SourceMap.exists_split front
  have hpart : positionBehind (head ++ tail) = (head.count '\n', utf16Length tail) := by
    have hzero : positionBehind head = (head.count '\n', 0) := by
      obtain rfl | hlast := hhead
      · rfl
      · obtain ⟨head, rfl⟩ := List.getLast?_eq_some_iff.mp hlast
        rw [positionBehind, List.rtakeWhile_concat]
        rfl
    rw [positionBehind_append head htail, hzero, Nat.zero_add]
  rw [hpart]
  exact positionUtf16_split hhead htail back

/-! ### Sending and reading -/

theorem charsBefore_zero (text : List Char) : charsBefore text 0 = [] := by
  cases text with
  | nil => rfl
  | cons c text =>
    have hpos := Char.utf8Size_pos c
    rw [charsBefore, if_neg (by omega)]

theorem charsBefore_extent (front back : List Char) :
    charsBefore (front ++ back) (extent Char.utf8Size front) = front := by
  have h := charsBefore_append front back 0
  rw [Nat.add_zero, charsBefore_zero, List.append_nil] at h
  exact h

/-- Where a token stands in the text. -/
def markOf (source : List Char) (token : ClassifiedToken) : Mark :=
  let front := charsBefore source token.span.start
  let inside := (charsBefore source token.span.stop).drop front.length
  ⟨(positionBehind front).1, (positionBehind front).2, utf16Length inside,
    (legendIndex token.kind).toNat⟩

/-- The token is a part of one line. -/
def OnOneLine (source : List Char) (token : ClassifiedToken) : Prop :=
  ∃ front text back, source = front ++ (text ++ back) ∧ '\n' ∉ text ∧
    token.span.start = extent Char.utf8Size front ∧
    token.span.stop = extent Char.utf8Size (front ++ text)

theorem checkedSub_ofNat {a b : Nat} (h : b ≤ a) (ha : a < UInt32.size) :
    checkedSub (UInt32.ofNat a) (UInt32.ofNat b) = some (UInt32.ofNat (a - b)) := by
  have hle : UInt32.ofNat b ≤ UInt32.ofNat a := by
    rw [UInt32.le_iff_toNat_le, UInt32.toNat_ofNat_of_lt' ha,
      UInt32.toNat_ofNat_of_lt' (Nat.lt_of_le_of_lt h ha)]
    exact h
  rw [checkedSub, if_pos hle, UInt32.ofNat_sub h]

theorem ofNat_inj {a b : Nat} (ha : a < UInt32.size) (hb : b < UInt32.size) :
    UInt32.ofNat a = UInt32.ofNat b ↔ a = b := by
  constructor
  · intro h
    have htoNat := congrArg UInt32.toNat h
    rw [UInt32.toNat_ofNat_of_lt' ha, UInt32.toNat_ofNat_of_lt' hb] at htoNat
    exact htoNat
  · intro h
    rw [h]

variable {source : List Char}

/-- What is sent of a token, behind one that begins at `previous`. -/
def sent (previous position : Nat × Nat) (length : Nat) (tokenType : UInt32) : SemanticToken :=
  ⟨UInt32.ofNat (position.1 - previous.1),
    UInt32.ofNat (position.2 - if position.1 = previous.1 then previous.2 else 0),
    UInt32.ofNat length, tokenType⟩

theorem decodeFrom_sent {previous position : Nat × Nat} {length : Nat}
    (hprevious : NotAfter previous position)
    (hbound : position.1 + position.2 + length < UInt32.size) (tokenType : UInt32)
    (rest : List SemanticToken) :
    decodeFrom previous (sent previous position length tokenType :: rest) =
      ⟨position.1, position.2, length, tokenType.toNat⟩ :: decodeFrom position rest := by
  rw [NotAfter] at hprevious
  have hline : previous.1 + (UInt32.ofNat (position.1 - previous.1)).toNat = position.1 := by
    rw [UInt32.toNat_ofNat_of_lt' (by omega)]
    omega
  have hzero : UInt32.ofNat (position.1 - previous.1) = 0 ↔ position.1 = previous.1 := by
    have hsize : 0 < UInt32.size := by decide
    have h := ofNat_inj (a := position.1 - previous.1) (b := 0) (by omega) hsize
    exact h.trans (by omega)
  have hlength : (UInt32.ofNat length).toNat = length := UInt32.toNat_ofNat_of_lt' (by omega)
  rw [decodeFrom, sent]
  dsimp only
  rw [hline, hlength]
  by_cases hsame : position.1 = previous.1
  · have hstart : previous.2 + (UInt32.ofNat (position.2 - previous.2)).toNat = position.2 := by
      rw [UInt32.toNat_ofNat_of_lt' (by omega)]
      omega
    rw [if_pos (hzero.mpr hsame), if_pos hsame, hstart]
  · rw [if_neg fun h => hsame (hzero.mp h), if_neg hsame, Nat.sub_zero,
      UInt32.toNat_ofNat_of_lt' (by omega)]

theorem position_bound (hsize : utf16Length source < UInt32.size) {front text back : List Char}
    (hsource : source = front ++ (text ++ back)) :
    (positionBehind front).1 + (positionBehind front).2 + utf16Length text < UInt32.size := by
  have hle := positionBehind_le front
  rw [hsource, utf16Length_append, utf16Length_append] at hsize
  omega

/-- A token behind a position that is not after it. -/
theorem encodeToken_eq (hsize : utf16Length source < UInt32.size) {previous : Nat × Nat}
    {token : ClassifiedToken} {front text back : List Char}
    (hsource : source = front ++ (text ++ back)) (hline : '\n' ∉ text)
    (hstart : token.span.start = extent Char.utf8Size front)
    (hstop : token.span.stop = extent Char.utf8Size (front ++ text))
    (hprevious : NotAfter previous (positionBehind front)) :
    encodeToken source (UInt32.ofNat previous.1, UInt32.ofNat previous.2) token =
      some (some (sent previous (positionBehind front) (utf16Length text) (legendIndex token.kind)),
        (UInt32.ofNat (positionBehind front).1, UInt32.ofNat (positionBehind front).2)) := by
  have hfront := positionUtf16_eq front (text ++ back)
  have hbehind := positionUtf16_eq (front ++ text) back
  rw [List.append_assoc, positionBehind_append front hline] at hbehind
  rw [← hsource] at hfront hbehind
  have hbound := position_bound hsize hsource
  rw [NotAfter] at hprevious
  have hdeltaLine := checkedSub_ofNat (a := (positionBehind front).1) (b := previous.1)
    (by omega) (by omega)
  have hlength := checkedSub_ofNat (a := (positionBehind front).2 + utf16Length text)
    (b := (positionBehind front).2) (Nat.le_add_right _ _) (by omega)
  rw [Nat.add_sub_cancel_left] at hlength
  rw [encodeToken, hstart, hstop, hfront, hbehind, sent]
  dsimp only [bind, Option.bind, pure]
  rw [if_neg (fun h => h rfl), hdeltaLine, hlength]
  dsimp only
  by_cases hsame : (positionBehind front).1 = previous.1
  · have hdeltaStart := checkedSub_ofNat (a := (positionBehind front).2) (b := previous.2)
      (by omega) (by omega)
    rw [if_pos (congrArg UInt32.ofNat hsame), if_pos hsame, hdeltaStart]
  · rw [if_neg fun h => hsame ((ofNat_inj (by omega) (by omega)).mp h), if_neg hsame,
      Nat.sub_zero]

theorem markOf_eq {token : ClassifiedToken} {front text back : List Char}
    (hsource : source = front ++ (text ++ back))
    (hstart : token.span.start = extent Char.utf8Size front)
    (hstop : token.span.stop = extent Char.utf8Size (front ++ text)) :
    markOf source token = ⟨(positionBehind front).1, (positionBehind front).2, utf16Length text,
      (legendIndex token.kind).toNat⟩ := by
  have hfront : charsBefore source token.span.start = front := by
    rw [hstart, hsource, charsBefore_extent]
  have hbehind : charsBefore source token.span.stop = front ++ text := by
    rw [hstop, hsource, ← List.append_assoc, charsBefore_extent]
  rw [markOf, hfront, hbehind, List.drop_left]

/-- Of two beginnings of a text, the one that takes less room begins the other. -/
theorem prefix_of_extent_le {front back front' back' : List Char} (h : source = front ++ back)
    (h' : source = front' ++ back')
    (hle : extent Char.utf8Size front ≤ extent Char.utf8Size front') : front <+: front' := by
  obtain hbegins | ⟨rest, hrest⟩ := List.prefix_or_prefix_of_prefix
    (⟨back, h.symm⟩ : front <+: source) (⟨back', h'.symm⟩ : front' <+: source)
  · exact hbegins
  · have hnil : rest = [] := by
      by_contra hne
      have hpos := extent_pos Char.utf8Size_pos hne
      rw [← hrest, extent_append] at hle
      omega
    rw [← hrest, hnil, List.append_nil]

/-- What is sent is read back. -/
theorem decode_encodeFrom (hsize : utf16Length source < UInt32.size)
    {list : List ClassifiedToken} (hlines : ∀ token ∈ list, OnOneLine source token)
    (hsorted : list.Pairwise fun token next => token.span.stop ≤ next.span.start)
    {previous : Nat × Nat} (hprevious : ∀ token ∈ list,
      NotAfter previous (positionBehind (charsBefore source token.span.start))) :
    ∃ data, encodeFrom source (UInt32.ofNat previous.1, UInt32.ofNat previous.2) list = some data ∧
      decodeFrom previous data = list.map (markOf source) := by
  induction list generalizing previous with
  | nil => exact ⟨[], rfl, rfl⟩
  | cons token list ih =>
    obtain ⟨front, text, back, hsource, hline, hstart, hstop⟩ := hlines token List.mem_cons_self
    have hfront : charsBefore source token.span.start = front := by
      rw [hstart, hsource, charsBefore_extent]
    have hbefore := hprevious token List.mem_cons_self
    rw [hfront] at hbefore
    have hlater : ∀ next ∈ list,
        NotAfter (positionBehind front) (positionBehind (charsBefore source next.span.start)) := by
      intro next hnext
      obtain ⟨front', text', back', hsource', -, hstart', -⟩ :=
        hlines next (List.mem_cons_of_mem _ hnext)
      have hle : token.span.stop ≤ next.span.start := (List.pairwise_cons.mp hsorted).1 next hnext
      have hfront' : charsBefore source next.span.start = front' := by
        rw [hstart', hsource', charsBefore_extent]
      rw [hstop, hstart'] at hle
      obtain ⟨mid, rfl⟩ := prefix_of_extent_le (hsource.trans (List.append_assoc _ _ _).symm)
        hsource' hle
      rw [hfront', List.append_assoc]
      exact notAfter_append front (text ++ mid)
    obtain ⟨data, hdata, hmarks⟩ := ih (fun next h => hlines next (List.mem_cons_of_mem _ h))
      (List.pairwise_cons.mp hsorted).2 hlater
    have htoken := encodeToken_eq hsize hsource hline hstart hstop hbefore
    let first :=
      sent previous (positionBehind front) (utf16Length text) (legendIndex token.kind)
    refine ⟨first :: data, ?_, ?_⟩
    · rw [encodeFrom, htoken]
      dsimp only [bind, Option.bind]
      rw [hdata]
      rfl
    · rw [List.map_cons, markOf_eq hsource hstart hstop, ← hmarks]
      exact decodeFrom_sent hbefore (position_bound hsize hsource) _ data

/-! ### The server's answer -/

theorem semanticTokens_lines (grammar : Grammar) (source : String) :
    ∀ token ∈ semanticTokens grammar source, OnOneLine source.toList token := by
  intro classified hclassified
  cases h : Lexer.tokenizeInFile grammar.xid source ROOT_FILE with
  | error e =>
    rw [semanticTokens, h] at hclassified
    exact absurd hclassified List.not_mem_nil
  | ok tokens =>
    rw [semanticTokens_eq h] at hclassified
    obtain ⟨place, token, htoken, hspan, hkind⟩ := mem_classifyTokens.mp hclassified
    have hmem := List.mem_of_getElem? htoken
    obtain ⟨front, back, hsource, hstart, hstop⟩ := Lexer.tokenize_lies h hmem
    rw [OnOneLine, hspan]
    exact ⟨front, _, back, hsource, (spelled_of_classified h hmem hkind).2, hstart, hstop⟩

end Quilon.Lsp
