import Mathlib.Data.List.DropRight
import Quilon.Diagnostics.SourceMap
import Quilon.Runtime.Equiv.Indexing

/-!
# Positions and offsets

What stands before an offset is lines that end and a part of the one behind them; the position is how many
lines end and how many code units the part takes (`positionUtf16_split`), and the offset of that position is
found by going through the part again (`byteOffset_split`).  Lines and columns beyond `u32` wrap around
(`position_wraps`); all others are told apart, in order (`positions_round_trip`).
-/

namespace Quilon.SourceMap

open Text (byteLength strRange strRange_of_split strRange_suffix byteLength_append)

variable {text front back head tail rest : List Char} {offset : Nat}

/-! ### Lines -/

/-- Lines that end. -/
def WholeLines (head : List Char) : Prop := head = [] ∨ head.getLast? = some '\n'

/-- A part of one line. -/
def OneLine (tail : List Char) : Prop := '\n' ∉ tail

/-- What stands before an offset, in these two parts. -/
theorem exists_split (front : List Char) :
    ∃ head tail, front = head ++ tail ∧ WholeLines head ∧ OneLine tail := by
  refine ⟨front.rdropWhile (· ≠ '\n'), front.rtakeWhile (· ≠ '\n'),
    List.rdropWhile_append_rtakeWhile.symm, ?_, fun hmem => ?_⟩
  · by_cases hnil : front.rdropWhile (· ≠ '\n') = []
    · exact .inl hnil
    · have hlast := List.rdropWhile_last_not (fun c => decide (c ≠ '\n')) front hnil
      refine .inr ?_
      rw [List.getLast?_eq_getLast_of_ne_nil hnil]
      simpa using hlast
  · simpa using List.mem_rtakeWhile_imp hmem

theorem newlineEnds_append : newlineEnds offset (front ++ back) =
    newlineEnds offset front ++ newlineEnds (offset + byteLength front) back := by
  induction front generalizing offset with
  | nil => rfl
  | cons c front ih =>
    have hlength : byteLength (c :: front) = c.utf8Size + byteLength front := rfl
    rw [List.cons_append, newlineEnds, newlineEnds, hlength]
    split
    case isTrue hc =>
      subst hc
      have hone : ('\n').utf8Size = 1 := rfl
      rw [ih, hone, Nat.add_assoc]
      rfl
    case isFalse => rw [ih, Nat.add_assoc]

theorem length_newlineEnds (offset : Nat) (text : List Char) :
    (newlineEnds offset text).length = text.count '\n' := by
  induction text generalizing offset with
  | nil => rfl
  | cons c text ih =>
    rw [newlineEnds]
    split
    case isTrue hc =>
      subst hc
      rw [List.length_cons, ih, List.count_cons_self]
    case isFalse hc => rw [ih, List.count_cons_of_ne hc]

theorem newlineEnds_oneLine (h : OneLine tail) (offset : Nat) : newlineEnds offset tail = [] := by
  apply List.length_eq_zero_iff.mp
  rw [length_newlineEnds]
  exact List.count_eq_zero_of_not_mem h

/-- Lines begin within the text, one behind the other. -/
theorem newlineEnds_sorted (offset : Nat) (text : List Char) :
    (newlineEnds offset text).Pairwise (· < ·) ∧
      ∀ start ∈ newlineEnds offset text, offset < start ∧ start ≤ offset + byteLength text := by
  induction text generalizing offset with
  | nil => exact ⟨List.Pairwise.nil, fun start hstart => by cases hstart⟩
  | cons c text ih =>
    have hlength : byteLength (c :: text) = c.utf8Size + byteLength text := rfl
    rw [newlineEnds, hlength]
    split
    case isTrue hc =>
      subst hc
      have hone : ('\n').utf8Size = 1 := rfl
      obtain ⟨hsorted, hwithin⟩ := ih (offset + 1)
      refine ⟨List.pairwise_cons.mpr ⟨fun start hstart => (hwithin start hstart).1, hsorted⟩, ?_⟩
      intro start hstart
      rcases List.mem_cons.mp hstart with rfl | hstart
      · omega
      · have := hwithin start hstart
        omega
    case isFalse hc =>
      have hpos := c.utf8Size_pos
      obtain ⟨hsorted, hwithin⟩ := ih (offset + c.utf8Size)
      refine ⟨hsorted, fun start hstart => ?_⟩
      have := hwithin start hstart
      omega

/-- The line table around the line that `tail` is a part of. -/
theorem starts_split (hhead : WholeLines head) (htail : OneLine tail) (back : List Char) :
    ∃ before, before.length = head.count '\n' ∧
      (LineIndex.new (head ++ tail ++ back)).starts =
        before ++ byteLength head :: newlineEnds (byteLength (head ++ tail)) back := by
  have hends : newlineEnds 0 (head ++ tail ++ back) =
      newlineEnds 0 head ++ newlineEnds (byteLength (head ++ tail)) back := by
    rw [newlineEnds_append, newlineEnds_append, newlineEnds_oneLine htail, List.append_nil, Nat.zero_add]
  unfold LineIndex.new
  rw [hends]
  rcases hhead with rfl | hlast
  · exact ⟨[], rfl, rfl⟩
  · obtain ⟨init, rfl⟩ := List.getLast?_eq_some_iff.mp hlast
    refine ⟨0 :: newlineEnds 0 init, ?_, ?_⟩
    · rw [List.length_cons, length_newlineEnds, List.count_append]
      rfl
    · have hinit : newlineEnds 0 (init ++ ['\n']) = newlineEnds 0 init ++ [byteLength (init ++ ['\n'])] := by
        rw [newlineEnds_append, byteLength_append, Nat.zero_add]
        rfl
      rw [hinit]
      simp

theorem starts_sorted (text : List Char) : (LineIndex.new text).starts.Pairwise (· < ·) := by
  obtain ⟨hsorted, hwithin⟩ := newlineEnds_sorted 0 text
  exact List.pairwise_cons.mpr ⟨fun start hstart => (hwithin start hstart).1, hsorted⟩

/-- The search finds the line an offset lies on. -/
theorem lineAt_split (hhead : WholeLines head) (htail : OneLine tail) (back : List Char) :
    (LineIndex.new (head ++ tail ++ back)).lineAt (byteLength (head ++ tail)) =
      some (head.count '\n' + 1, byteLength head) := by
  have hsorted := starts_sorted (head ++ tail ++ back)
  have hle : byteLength head ≤ byteLength (head ++ tail) := by
    rw [byteLength_append]
    exact Nat.le_add_right _ _
  have hfirst : (LineIndex.new (head ++ tail ++ back)).starts[0]? = some 0 := rfl
  obtain ⟨base, hanswer, ⟨found, hfound, hbase⟩, hbehind⟩ :=
    binarySearch_spec hsorted hfirst (Nat.zero_le (byteLength (head ++ tail)))
  obtain ⟨before, hlength, hstarts⟩ := starts_split hhead htail back
  have hline : (LineIndex.new (head ++ tail ++ back)).starts[before.length]? = some (byteLength head) := by
    rw [hstarts, List.getElem?_append_right (Nat.le_refl _), Nat.sub_self]
    rfl
  have hplace : base = before.length := by
    rcases Nat.lt_trichotomy base before.length with hlt | heq | hgt
    · -- the line's own start would lie behind the offset
      have := hbehind _ hlt _ hline
      omega
    · exact heq
    · -- a later line would begin before the offset
      have hlater : found ∈ newlineEnds (byteLength (head ++ tail)) back := by
        rw [hstarts, List.getElem?_append_right (Nat.le_of_lt hgt)] at hfound
        obtain ⟨k, hk⟩ : ∃ k, base - before.length = k + 1 := ⟨base - before.length - 1, by omega⟩
        rw [hk, List.getElem?_cons_succ] at hfound
        exact List.mem_of_getElem? hfound
      have := ((newlineEnds_sorted _ back).2 found hlater).1
      omega
  subst hplace
  unfold LineIndex.lineAt
  rcases hanswer with hanswer | hanswer
  · rw [hanswer]
    simp only [Option.bind_eq_bind, Option.bind_some, hline, ← hlength]
    rfl
  · rw [hanswer]
    simp only [Option.bind_eq_bind, Option.bind_some, hline, ← hlength]
    rfl

/-! ### Boundaries -/

theorem isCharBoundary_iff {index : Nat} :
    isCharBoundary text index = true ↔ ∃ front, front <+: text ∧ byteLength front = index := by
  unfold isCharBoundary
  rw [Option.isSome_iff_exists]
  constructor
  · rintro ⟨i, hi⟩
    obtain ⟨-, hextent⟩ := (indexAt_eq_some_iff Char.utf8Size_pos).mp hi
    exact ⟨text.take i, List.take_prefix i text, hextent⟩
  · rintro ⟨front, ⟨back, rfl⟩, rfl⟩
    exact ⟨front.length, Text.indexAt_byteLength front back⟩

theorem byteLength_le_of_prefix (h : front <+: text) : byteLength front ≤ byteLength text := by
  obtain ⟨back, rfl⟩ := h
  rw [byteLength_append]
  exact Nat.le_add_right _ _

/-- The offset moves back to the last boundary that is not behind it. -/
theorem floorFrom_spec (text : List Char) (index : Nat) :
    isCharBoundary text (floorFrom text index) = true ∧ floorFrom text index ≤ index ∧
      ∀ boundary ≤ index, isCharBoundary text boundary = true → boundary ≤ floorFrom text index := by
  induction index with
  | zero =>
    refine ⟨isCharBoundary_iff.mpr ⟨[], List.nil_prefix, rfl⟩, Nat.le_refl 0, fun b hb _ => hb⟩
  | succ index ih =>
    rw [floorFrom]
    split
    case isTrue hhere => exact ⟨hhere, Nat.le_refl _, fun b hb _ => hb⟩
    case isFalse hhere =>
      refine ⟨ih.1, Nat.le_succ_of_le ih.2.1, fun b hb hboundary => ?_⟩
      rcases Nat.lt_or_eq_of_le hb with hlt | rfl
      · exact ih.2.2 b (Nat.le_of_lt_succ hlt) hboundary
      · exact absurd hboundary hhere

theorem floorCharBoundary_spec (text : List Char) (index : Nat) :
    isCharBoundary text (floorCharBoundary text index) = true ∧ floorCharBoundary text index ≤ index ∧
      ∀ boundary ≤ index, isCharBoundary text boundary = true →
        boundary ≤ floorCharBoundary text index := by
  obtain ⟨hboundary, hle, hlast⟩ := floorFrom_spec text (min index (byteLength text))
  refine ⟨hboundary, Nat.le_trans hle (Nat.min_le_left _ _), fun b hb hb' => hlast b ?_ hb'⟩
  obtain ⟨front, hfront, rfl⟩ := isCharBoundary_iff.mp hb'
  exact Nat.le_min.mpr ⟨hb, byteLength_le_of_prefix hfront⟩

theorem floorCharBoundary_of_boundary {index : Nat} (h : isCharBoundary text index = true) :
    floorCharBoundary text index = index := by
  obtain ⟨-, hle, hlast⟩ := floorCharBoundary_spec text index
  exact Nat.le_antisymm hle (hlast index (Nat.le_refl _) h)

/-! ### Positions -/

/-- The position of what stands behind whole lines and a part of the next. -/
theorem positionUtf16_split (hhead : WholeLines head) (htail : OneLine tail) (back : List Char) :
    positionUtf16 (head ++ tail ++ back) (byteLength (head ++ tail)) =
      some (UInt32.ofNat (head.count '\n'), UInt32.ofNat (utf16Length tail)) := by
  have hboundary : isCharBoundary (head ++ tail ++ back) (byteLength (head ++ tail)) = true :=
    isCharBoundary_iff.mpr ⟨head ++ tail, List.prefix_append _ _, rfl⟩
  unfold positionUtf16
  simp only [floorCharBoundary_of_boundary hboundary, lineAt_split hhead htail back,
    strRange_of_split head tail back, Option.bind_eq_bind, Option.bind_some]
  rfl

/-- The loop goes through as much of the line as there are code units. -/
theorem offsetInLine_part (htail : OneLine tail) (offset : Nat) (back : List Char) :
    (offsetInLine offset (utf16Length tail) (tail ++ back)).getD (offset + byteLength (tail ++ back)) =
      offset + byteLength tail := by
  induction tail generalizing offset with
  | nil =>
    cases back with
    | nil => rfl
    | cons c back =>
      have hnone : utf16Length [] = 0 := rfl
      rw [hnone, List.nil_append, offsetInLine, if_pos (.inr rfl)]
      rfl
  | cons c tail ih =>
    have hlength : utf16Length (c :: tail) = lenUtf16 c + utf16Length tail := rfl
    have hbytes : ∀ text, byteLength (c :: text) = c.utf8Size + byteLength text := fun text => rfl
    have hpos : 0 < lenUtf16 c := by
      unfold lenUtf16
      split <;> decide
    have hc : ¬ (c = '\n' ∨ lenUtf16 c + utf16Length tail = 0) := by
      rintro (rfl | hzero)
      · exact htail List.mem_cons_self
      · omega
    have hrest := ih (fun hmem => htail (List.mem_cons_of_mem _ hmem)) (offset + c.utf8Size)
    rw [List.cons_append, hlength, offsetInLine, if_neg hc, Nat.add_sub_cancel_left, hbytes, hbytes,
      ← Nat.add_assoc, ← Nat.add_assoc]
    exact hrest

/-- The loop stops between two characters of the line. -/
theorem offsetInLine_within (offset remaining : Nat) (text : List Char) :
    ∃ tail back, text = tail ++ back ∧ OneLine tail ∧
      (offsetInLine offset remaining text).getD (offset + byteLength text) =
        offset + byteLength tail := by
  induction text generalizing offset remaining with
  | nil => exact ⟨[], [], rfl, List.not_mem_nil, rfl⟩
  | cons c text ih =>
    rw [offsetInLine]
    split
    case isTrue => exact ⟨[], c :: text, rfl, List.not_mem_nil, rfl⟩
    case isFalse hc =>
      obtain ⟨tail, back, rfl, htail, hoffset⟩ := ih (offset + c.utf8Size) (remaining - lenUtf16 c)
      refine ⟨c :: tail, back, rfl, fun hmem => ?_, ?_⟩
      · rcases List.mem_cons.mp hmem with hnewline | hmem
        · exact hc (.inl hnewline.symm)
        · exact htail hmem
      · have hbytes : ∀ text, byteLength (c :: text) = c.utf8Size + byteLength text := fun text => rfl
        rw [hbytes, hbytes, ← Nat.add_assoc, ← Nat.add_assoc]
        exact hoffset

/-! ### Offsets -/

theorem starts_of_split (hhead : WholeLines head) (rest : List Char) :
    (LineIndex.new (head ++ rest)).starts[head.count '\n']? = some (byteLength head) := by
  have hnone : OneLine [] := List.not_mem_nil
  obtain ⟨before, hlength, hstarts⟩ := starts_split hhead hnone rest
  rw [List.append_nil] at hstarts
  rw [hstarts, ← hlength, List.getElem?_append_right (Nat.le_refl _), Nat.sub_self]
  rfl

/-- As many lines end as are asked for, if there are so many. -/
theorem exists_line {k : Nat} (hk : k ≤ text.count '\n') :
    ∃ head rest, text = head ++ rest ∧ WholeLines head ∧ head.count '\n' = k := by
  induction text generalizing k with
  | nil =>
    rw [List.count_nil] at hk
    exact ⟨[], [], rfl, .inl rfl, (Nat.le_zero.mp hk).symm⟩
  | cons c text ih =>
    cases k with
    | zero => exact ⟨[], c :: text, rfl, .inl rfl, rfl⟩
    | succ k =>
      by_cases hc : c = '\n'
      · subst hc
        rw [List.count_cons_self] at hk
        obtain ⟨head, rest, rfl, hhead, hcount⟩ := ih (Nat.le_of_succ_le_succ hk)
        refine ⟨'\n' :: head, rest, rfl, .inr ?_, by rw [List.count_cons_self, hcount]⟩
        rcases hhead with rfl | hlast
        · rfl
        · rw [List.getLast?_cons, hlast]
          rfl
      · rw [List.count_cons_of_ne hc] at hk
        obtain ⟨head, rest, rfl, hhead, hcount⟩ := ih hk
        refine ⟨c :: head, rest, rfl, .inr ?_, by rw [List.count_cons_of_ne hc, hcount]⟩
        rcases hhead with rfl | hlast
        · cases hcount
        · rw [List.getLast?_cons, hlast]
          rfl

theorem length_starts_new (text : List Char) :
    (LineIndex.new text).starts.length = text.count '\n' + 1 := by
  unfold LineIndex.new
  rw [List.length_cons, length_newlineEnds]

theorem byteOffset_of_line (hhead : WholeLines head) (rest : List Char) {line : UInt32}
    (hline : line.toNat = head.count '\n') (character : UInt32) :
    byteOffset (head ++ rest) line character =
      some ((offsetInLine (byteLength head) character.toNat rest).getD (byteLength head + byteLength rest)) := by
  unfold byteOffset
  rw [hline, starts_of_split hhead rest]
  simp only [strRange_suffix head rest, Option.bind_eq_bind, Option.bind_some]
  rw [byteLength_append]
  rfl

/-- The offset of a position is the one it was made of. -/
theorem byteOffset_split (hhead : WholeLines head) (htail : OneLine tail) (back : List Char)
    (hline : head.count '\n' < 2 ^ 32) (hcolumn : utf16Length tail < 2 ^ 32) :
    byteOffset (head ++ tail ++ back) (UInt32.ofNat (head.count '\n')) (UInt32.ofNat (utf16Length tail)) =
      some (byteLength (head ++ tail)) := by
  have hline' : (UInt32.ofNat (head.count '\n')).toNat = head.count '\n' := UInt32.toNat_ofNat_of_lt hline
  have hcolumn' : (UInt32.ofNat (utf16Length tail)).toNat = utf16Length tail :=
    UInt32.toNat_ofNat_of_lt hcolumn
  rw [List.append_assoc, byteOffset_of_line hhead (tail ++ back) hline', hcolumn',
    offsetInLine_part htail, byteLength_append]

/-- Every position has an offset between two characters, on its line if there is one. -/
theorem byteOffset_within (text : List Char) (line character : UInt32) :
    ∃ front, front <+: text ∧ byteOffset text line character = some (byteLength front) ∧
      (line.toNat < (LineIndex.new text).starts.length →
        ∃ column, positionUtf16 text (byteLength front) = some (line, column)) := by
  by_cases hexists : line.toNat < (LineIndex.new text).starts.length
  · rw [length_starts_new] at hexists
    obtain ⟨head, rest, rfl, hhead, hcount⟩ := exists_line (Nat.le_of_lt_succ hexists)
    obtain ⟨tail, back, rfl, htail, hoffset⟩ :=
      offsetInLine_within (byteLength head) character.toNat rest
    rw [byteOffset_of_line hhead (tail ++ back) hcount.symm, hoffset, ← List.append_assoc]
    refine ⟨head ++ tail, List.prefix_append _ _, by rw [byteLength_append], fun _ => ?_⟩
    rw [positionUtf16_split hhead htail back, hcount, UInt32.ofNat_toNat]
    exact ⟨_, rfl⟩
  · refine ⟨text, List.prefix_refl text, ?_, fun h => absurd h hexists⟩
    unfold byteOffset
    rw [List.getElem?_eq_none (Nat.le_of_not_lt hexists)]

/-! ### Order -/

/-- The lexicographic order of positions. -/
def Before (p q : UInt32 × UInt32) : Prop := p.1 < q.1 ∨ (p.1 = q.1 ∧ p.2 < q.2)

/-- The line behind these characters, and the column there, are `u32` values. -/
def Fits (front : List Char) : Prop :=
  front.count '\n' < 2 ^ 32 ∧ utf16Length (front.rtakeWhile (· ≠ '\n')) < 2 ^ 32

theorem rtakeWhile_split (hhead : WholeLines head) (htail : OneLine tail) :
    (head ++ tail).rtakeWhile (· ≠ '\n') = tail ∧ (head ++ tail).count '\n' = head.count '\n' := by
  constructor
  · induction tail using List.reverseRecOn with
    | nil =>
      rcases hhead with rfl | hlast
      · rfl
      · obtain ⟨init, rfl⟩ := List.getLast?_eq_some_iff.mp hlast
        rw [List.append_nil]
        exact List.rtakeWhile_concat_neg _ _ _ (by simp)
    | append_singleton tail c ih =>
      have hc : c ≠ '\n' := by
        rintro rfl
        exact htail (by simp)
      have hrest := ih fun hmem => htail (List.mem_append_left _ hmem)
      rw [← List.append_assoc, List.rtakeWhile_concat_pos _ _ _ (by simpa using hc),
        hrest]
  · rw [List.count_append, List.count_eq_zero_of_not_mem htail, Nat.add_zero]

theorem fits_split (hhead : WholeLines head) (htail : OneLine tail) :
    Fits (head ++ tail) ↔ head.count '\n' < 2 ^ 32 ∧ utf16Length tail < 2 ^ 32 := by
  obtain ⟨hpart, hcount⟩ := rtakeWhile_split hhead htail
  unfold Fits
  rw [hpart, hcount]

theorem ofNat_lt {m n : Nat} (h : m < n) (hn : n < 2 ^ 32) : UInt32.ofNat m < UInt32.ofNat n := by
  have hm : (UInt32.ofNat m).toNat = m := UInt32.toNat_ofNat_of_lt (Nat.lt_trans h hn)
  have hn' : (UInt32.ofNat n).toNat = n := UInt32.toNat_ofNat_of_lt hn
  rw [UInt32.lt_iff_toNat_lt, hm, hn']
  exact h

/-- Behind more of a text the position is a later one. -/
theorem before_of_append (hne : back ≠ []) (hmore : Fits (front ++ back)) (rest : List Char) :
    ∃ p q, positionUtf16 (front ++ back ++ rest) (byteLength front) = some p ∧
      positionUtf16 (front ++ back ++ rest) (byteLength (front ++ back)) = some q ∧ Before p q := by
  obtain ⟨head, tail, rfl, hhead, htail⟩ := exists_split front
  have hfront := positionUtf16_split hhead htail (back ++ rest)
  rw [← List.append_assoc] at hfront
  by_cases hline : OneLine back
  · -- on one line, the column is a later one
    have hpart : OneLine (tail ++ back) := fun hmem => (List.mem_append.mp hmem).elim htail hline
    have hback := positionUtf16_split hhead hpart rest
    rw [← List.append_assoc] at hback
    rw [List.append_assoc, fits_split hhead hpart] at hmore
    refine ⟨_, _, hfront, hback, .inr ⟨rfl, ofNat_lt ?_ hmore.2⟩⟩
    unfold utf16Length
    rw [extent_append]
    refine Nat.lt_add_of_pos_right (extent_pos (fun c => ?_) hne)
    unfold lenUtf16
    split <;> decide
  · -- or else more lines end
    obtain ⟨head', tail', hsplit, hhead', htail'⟩ := exists_split (head ++ tail ++ back)
    have hback := positionUtf16_split hhead' htail' rest
    rw [← hsplit] at hback
    rw [hsplit, fits_split hhead' htail'] at hmore
    refine ⟨_, _, hfront, hback, .inl (ofNat_lt ?_ hmore.1)⟩
    have hends : 0 < back.count '\n' := List.count_pos_iff.mpr (not_not.mp hline)
    rw [← (rtakeWhile_split hhead' htail').2, ← hsplit, List.count_append, List.count_append]
    omega

/-! ### Positions and offsets -/

/-- Where the line and the column are `u32` values an offset between characters has a position of its own,
from which it is found again, and later offsets have later ones; every position has an offset between
characters, on its line if there is one; and an offset within a character, or behind the text, has the
position of the last boundary before it. -/
theorem positions_round_trip (text : List Char) :
    (∀ front, front <+: text → Fits front → ∃ line character,
      positionUtf16 text (byteLength front) = some (line, character) ∧
        byteOffset text line character = some (byteLength front)) ∧
    (∀ line character, ∃ offset, byteOffset text line character = some offset ∧
      isCharBoundary text offset = true ∧
        (line.toNat < (LineIndex.new text).starts.length →
          ∃ column, positionUtf16 text offset = some (line, column))) ∧
    (∀ front behind, front <+: text → behind <+: text → Fits behind →
      byteLength front < byteLength behind →
        ∃ p q, positionUtf16 text (byteLength front) = some p ∧
          positionUtf16 text (byteLength behind) = some q ∧ Before p q) ∧
    ∀ offset, ∃ start, isCharBoundary text start = true ∧ start ≤ offset ∧
      (∀ boundary ≤ offset, isCharBoundary text boundary = true → boundary ≤ start) ∧
        positionUtf16 text offset = positionUtf16 text start := by
  refine ⟨?_, fun line character => ?_, ?_, fun offset => ?_⟩
  · rintro front ⟨back, rfl⟩ hfits
    obtain ⟨head, tail, rfl, hhead, htail⟩ := exists_split front
    obtain ⟨hline, hcolumn⟩ := (fits_split hhead htail).mp hfits
    exact ⟨_, _, positionUtf16_split hhead htail back, byteOffset_split hhead htail back hline hcolumn⟩
  · obtain ⟨front, hfront, hoffset, hline⟩ := byteOffset_within text line character
    exact ⟨byteLength front, hoffset, isCharBoundary_iff.mpr ⟨front, hfront, rfl⟩, hline⟩
  · intro front behind hfront hbehind hfits hlt
    have hmore : front <+: behind := by
      rcases List.prefix_or_prefix_of_prefix hfront hbehind with h | h
      · exact h
      · have := byteLength_le_of_prefix h
        omega
    obtain ⟨back, rfl⟩ := hmore
    obtain ⟨rest, rfl⟩ := hbehind
    apply before_of_append _ hfits
    rintro rfl
    rw [List.append_nil] at hlt
    exact Nat.lt_irrefl _ hlt
  · obtain ⟨hboundary, hle, hlast⟩ := floorCharBoundary_spec text offset
    refine ⟨_, hboundary, hle, hlast, ?_⟩
    unfold positionUtf16
    rw [floorCharBoundary_of_boundary hboundary]

/-- A character of two code units on the second of two lines. -/
theorem positions_round_trip_pair : ∃ line character,
    positionUtf16 ['a', '\r', '\n', '😀', 'b'] (byteLength ['a', '\r', '\n', '😀']) =
        some (line, character) ∧
      byteOffset ['a', '\r', '\n', '😀', 'b'] line character =
        some (byteLength ['a', '\r', '\n', '😀']) :=
  (positions_round_trip ['a', '\r', '\n', '😀', 'b']).1 ['a', '\r', '\n', '😀'] (by decide)
    (by unfold Fits; decide)

/-- A column of 2^32 is taken for the first. -/
theorem position_wraps :
    ¬ ∀ (text : List Char) (offset : Nat), isCharBoundary text offset = true → ∃ line character,
      positionUtf16 text offset = some (line, character) ∧ byteOffset text line character = some offset := by
  intro h
  have hlong : ∀ n, OneLine (List.replicate n 'a') ∧ utf16Length (List.replicate n 'a') = n ∧
      byteLength (List.replicate n 'a') = n := by
    intro n
    refine ⟨fun hmem => absurd (List.eq_of_mem_replicate hmem) (by decide), ?_, ?_⟩
    · exact (extent_replicate n 'a').trans (Nat.mul_one n)
    · exact (extent_replicate n 'a').trans (Nat.mul_one n)
  obtain ⟨n, hn⟩ : ∃ n, n = 2 ^ 32 := ⟨_, rfl⟩
  obtain ⟨hline, hunits, hbytes⟩ := hlong n
  have hend := positionUtf16_split (.inl rfl) hline []
  have hbegin := byteOffset_split (.inl rfl) List.not_mem_nil (List.replicate n 'a') (by decide) (by decide)
  have hwrapped : UInt32.ofNat n = 0 := by
    rw [hn]
    rfl
  rw [List.nil_append, List.append_nil, hunits, hbytes, hwrapped] at hend
  rw [List.nil_append, List.nil_append] at hbegin
  obtain ⟨line, character, hposition, hoffset⟩ := h (List.replicate n 'a') n
    (isCharBoundary_iff.mpr ⟨_, List.prefix_refl _, hbytes⟩)
  obtain ⟨rfl, rfl⟩ := Prod.mk.inj (Option.some.inj (hposition.symm.trans hend))
  have hzero : (0 : Nat) = n := Option.some.inj (hbegin.symm.trans hoffset)
  omega

end Quilon.SourceMap
