import Quilon.Runtime.Indexing
import Quilon.Runtime.Equiv.Text

/-!
# Slicing, picking and searching by index

The two paths of each operation agree on a well-formed text, and every offset they form lies in the text
and on the boundary of a character (`textSliceChecked_eq`, `textAtChecked_eq`, `isSome_textFindFrom`).
`texts_index` puts them together with what slices, picks and clusters make of a text: its content, decoded;
`slices_of_illFormed` is a text whose bytes they change.
-/

namespace Quilon.Text

open Utf8

variable {unicode : Unicode} {slice sub : QnSlice} {text front back : List Char}

/-! ### Offsets of characters and clusters -/

theorem byteLength_eq (text : List Char) : byteLength text = (encode text).length := by
  unfold byteLength encode
  induction text with
  | nil => rfl
  | cons c text ih =>
    rw [extent_cons, List.flatMap_cons, List.length_append, length_encodeChar, ih]

@[simp] theorem byteLength_append : byteLength (front ++ back) = byteLength front + byteLength back :=
  extent_append

theorem indexAt_byteLength (front back : List Char) :
    indexAt Char.utf8Size (front ++ back) (byteLength front) = some front.length :=
  indexAt_extent Char.utf8Size_pos front back

/-- A range between the boundaries of a part. -/
theorem strRange_of_split (front part back : List Char) :
    strRange (front ++ part ++ back) (byteLength front) (byteLength (front ++ part)) = some part := by
  have hfirst : indexAt Char.utf8Size (front ++ part ++ back) (byteLength front) =
      some front.length := by
    rw [List.append_assoc]
    exact indexAt_byteLength front (part ++ back)
  have hlast := indexAt_byteLength (front ++ part) back
  have hle : front.length ≤ (front ++ part).length := by
    rw [List.length_append]
    exact Nat.le_add_right _ _
  unfold strRange
  simp only [hfirst, hlast, Option.bind_eq_bind, Option.bind_some]
  rw [if_pos hle, List.take_left, List.drop_left]

theorem strRange_suffix (front back : List Char) :
    strRange (front ++ back) (byteLength front) (byteLength (front ++ back)) = some back := by
  have h := strRange_of_split front back []
  rwa [List.append_nil] at h

theorem strFind_le {characters : Nat} (h : strFind text front = some characters) :
    characters ≤ text.length := by
  unfold strFind at h
  split at h
  · rw [← Option.some.inj h]
    exact Nat.zero_le _
  · next hne =>
    obtain ⟨hfound, _⟩ := (firstIndexOf_eq_some_iff hne).mp h
    have hend := add_length_le_of_prefix_drop hfound hne
    omega

/-- Where the cluster behind the first `k` ones begins. -/
theorem getElem?_graphemeStarts {k : Nat} (hk : k < (graphemesOf unicode text).length) :
    (graphemeStarts unicode text)[k]? =
      some (byteLength ((graphemesOf unicode text).take k).flatten) := by
  unfold graphemeStarts
  rw [getElem?_starts hk, Nat.zero_add, byteLength, extent_flatten]
  rfl

theorem length_graphemeStarts (unicode : Unicode) (text : List Char) :
    (graphemeStarts unicode text).length = (graphemesOf unicode text).length :=
  length_starts byteLength _ 0

/-- The offset of a cluster, or of the end. -/
theorem bound_eq {k : Nat} (hk : k ≤ (graphemesOf unicode text).length) :
    (graphemeStarts unicode text ++ [byteLength text])[k]? =
      some (byteLength ((graphemesOf unicode text).take k).flatten) := by
  have hlength := length_graphemeStarts unicode text
  rcases Nat.lt_or_eq_of_le hk with hlt | heq
  · rw [List.getElem?_append_left (by omega)]
    exact getElem?_graphemeStarts hlt
  · rw [heq, List.take_length, ← hlength, List.getElem?_concat_length]
    refine congrArg (fun t => some (byteLength t)) ?_
    exact (flatten_graphemes unicode.classOf text).symm

/-! ### Slices -/

theorem sliceAscii_eq (slice : QnSlice) (start stop : Int) :
    sliceAscii slice start stop =
      some (if clamp stop slice.content.length ≤ clamp start slice.content.length then QnSlice.empty
        else allocTextWithCount
          ((slice.content.take (clamp stop slice.content.length)).drop
            (clamp start slice.content.length))
          (clamp stop slice.content.length - clamp start slice.content.length)) := by
  unfold sliceAscii
  dsimp only
  split
  case isTrue => rfl
  case isFalse hlt =>
    have hrange : clamp start slice.content.length ≤ clamp stop slice.content.length ∧
        clamp stop slice.content.length ≤ slice.content.length :=
      ⟨Nat.le_of_lt (Nat.lt_of_not_le hlt), clamp_le _ _⟩
    rw [byteRange, if_pos hrange]
    rfl

theorem sliceWalking_eq (unicode : Unicode) (slice : QnSlice) (start stop : Int) :
    sliceWalking unicode slice start stop =
      some (if clamp stop (graphemesOf unicode (textStr slice)).length ≤
          clamp start (graphemesOf unicode (textStr slice)).length then QnSlice.empty
        else allocTextWithCount
          (encode (((graphemesOf unicode (textStr slice)).take
            (clamp stop (graphemesOf unicode (textStr slice)).length)).drop
              (clamp start (graphemesOf unicode (textStr slice)).length)).flatten)
          (clamp stop (graphemesOf unicode (textStr slice)).length -
            clamp start (graphemesOf unicode (textStr slice)).length)) := by
  unfold sliceWalking
  have hlength : (graphemeStarts unicode (textStr slice) ++ [byteLength (textStr slice)]).length - 1 =
      (graphemesOf unicode (textStr slice)).length := by
    rw [List.length_append, length_graphemeStarts]
    rfl
  dsimp only
  rw [hlength]
  generalize hlo : clamp start (graphemesOf unicode (textStr slice)).length = lo
  generalize hhi : clamp stop (graphemesOf unicode (textStr slice)).length = hi
  have hlo' : lo ≤ (graphemesOf unicode (textStr slice)).length := hlo ▸ clamp_le _ _
  have hhi' : hi ≤ (graphemesOf unicode (textStr slice)).length := hhi ▸ clamp_le _ _
  split
  case isTrue => rfl
  case isFalse hlt =>
    have hle : lo ≤ hi := Nat.le_of_lt (Nat.lt_of_not_le hlt)
    -- the clusters before, in and behind the slice
    have hfront : ((graphemesOf unicode (textStr slice)).take hi).take lo =
        (graphemesOf unicode (textStr slice)).take lo := by
      rw [List.take_take, Nat.min_eq_left hle]
    have hpart : ((graphemesOf unicode (textStr slice)).take hi).flatten =
        ((graphemesOf unicode (textStr slice)).take lo).flatten ++
          (((graphemesOf unicode (textStr slice)).take hi).drop lo).flatten := by
      rw [← hfront, ← List.flatten_append, List.take_append_drop]
    have htext : textStr slice = ((graphemesOf unicode (textStr slice)).take lo).flatten ++
        (((graphemesOf unicode (textStr slice)).take hi).drop lo).flatten ++
          ((graphemesOf unicode (textStr slice)).drop hi).flatten := by
      rw [← hpart, ← List.flatten_append, List.take_append_drop]
      exact (flatten_graphemes unicode.classOf _).symm
    have hrange := strRange_of_split ((graphemesOf unicode (textStr slice)).take lo).flatten
      (((graphemesOf unicode (textStr slice)).take hi).drop lo).flatten
      ((graphemesOf unicode (textStr slice)).drop hi).flatten
    rw [← htext, ← hpart] at hrange
    rw [bound_eq hlo', bound_eq hhi']
    simp only [Option.bind_eq_bind, Option.bind_some, hrange]
    rfl

/-- Every offset `__text_slice` forms is one to cut at. -/
theorem textSliceChecked_eq (unicode : Unicode) (slice : QnSlice) (start stop : Int) :
    textSliceChecked unicode slice start stop = some (textSlice unicode slice start stop) := by
  unfold textSliceChecked textSlice
  split
  · exact sliceAscii_eq slice start stop
  · exact sliceWalking_eq unicode slice start stop

/-! ### Texts that are ASCII by their header -/

/-- The clusters of such a text are its characters, and its characters are its bytes. -/
theorem graphemes_of_ascii (h : WellFormed unicode slice)
    (hflag : (textHeaderOf slice).flags.asciiAligned = true) :
    (∀ b ∈ slice.content, b < 128) ∧
      graphemesOf unicode (textStr slice) = (slice.content.map asciiChar).map fun c => [c] := by
  obtain ⟨hascii, halone⟩ := h.ascii hflag
  have hsingle := eq_map_singleton_flatten halone
  rw [show (graphemesOf unicode (lossy slice.content)).flatten = lossy slice.content from
    flatten_graphemes unicode.classOf _, lossy_ascii hascii] at hsingle
  rw [textStr_eq]
  refine ⟨hascii, ?_⟩
  rw [lossy_ascii hascii]
  exact hsingle

theorem flatten_map_singleton {α : Type*} (list : List α) : (list.map fun a => [a]).flatten = list := by
  rw [List.flatten_eq_flatMap, List.flatMap_map]
  exact List.flatMap_singleton' list

/-- The two paths of `__text_slice` make the same text. -/
theorem sliceAscii_eq_sliceWalking (h : WellFormed unicode slice)
    (hflag : (textHeaderOf slice).flags.asciiAligned = true) (start stop : Int) :
    sliceAscii slice start stop = sliceWalking unicode slice start stop := by
  obtain ⟨hascii, hgraphemes⟩ := graphemes_of_ascii h hflag
  have hlength : (graphemesOf unicode (textStr slice)).length = slice.content.length := by
    rw [hgraphemes, List.length_map, List.length_map]
  rw [sliceAscii_eq, sliceWalking_eq, hlength]
  generalize clamp start slice.content.length = lo
  generalize clamp stop slice.content.length = hi
  have hpart : encode (((graphemesOf unicode (textStr slice)).take hi).drop lo).flatten =
      (slice.content.take hi).drop lo := by
    rw [hgraphemes, ← List.map_take, ← List.map_drop, flatten_map_singleton, ← List.map_take,
      ← List.map_drop]
    exact encode_ascii (ascii_slice hascii lo hi)
  rw [hpart]

/-- What a slice holds. -/
theorem content_textSlice (h : WellFormed unicode slice) (start stop : Int) :
    (textSlice unicode slice start stop).content =
      encode (((graphemesOf unicode (textStr slice)).take
        (clamp stop (graphemesOf unicode (textStr slice)).length)).drop
          (clamp start (graphemesOf unicode (textStr slice)).length)).flatten := by
  have hwalking : some (textSlice unicode slice start stop) = sliceWalking unicode slice start stop := by
    rw [← textSliceChecked_eq]
    unfold textSliceChecked
    split
    case isTrue hflag => exact sliceAscii_eq_sliceWalking h hflag start stop
    case isFalse => rfl
  rw [sliceWalking_eq] at hwalking
  rw [Option.some.inj hwalking]
  split
  case isTrue hle =>
    rw [List.drop_eq_nil_of_le (by rw [List.length_take]; omega)]
    rfl
  case isFalse => exact content_allocTextWithHeader _ _ _

/-- A text is its two parts, decoded. -/
theorem content_slices (h : WellFormed unicode slice) (i : Int) :
    (textConcat unicode (textSlice unicode slice 0 i)
      (textSlice unicode slice i (textHeaderOf slice).count)).content = encode (lossy slice.content) := by
  have hcount : (textHeaderOf slice).count = (graphemesOf unicode (textStr slice)).length := by
    rw [h.count, textStr_eq]
    rfl
  have hall := flatten_graphemes unicode.classOf (textStr slice)
  have hzero : clamp 0 (graphemesOf unicode (textStr slice)).length = 0 := by
    unfold clamp
    omega
  have hend : clamp (textHeaderOf slice).count (graphemesOf unicode (textStr slice)).length =
      (graphemesOf unicode (textStr slice)).length := by
    rw [hcount]
    unfold clamp
    omega
  rw [content_textConcat, content_textSlice h, content_textSlice h, hzero, hend, List.drop_zero, List.take_length,
    ← encode_append, ← List.flatten_append, List.take_append_drop, ← textStr_eq]
  exact congrArg encode hall

/-! ### Picking a cluster -/

theorem encode_asciiChar {b : UInt8} (h : b < 128) : encode [asciiChar b] = [b] := by
  rw [encode_cons, encodeChar_asciiChar h]
  rfl

/-- Every offset `__text_at` forms is one to cut at. -/
theorem textAtChecked_eq (unicode : Unicode) (slice : QnSlice) (index : Int) :
    textAtChecked unicode slice index = some (textAt unicode slice index) := by
  unfold textAtChecked textAt
  by_cases hneg : index < 0
  · rw [if_pos hneg, if_pos hneg]
  · rw [if_neg hneg, if_neg hneg]
    split
    case isTrue =>
      unfold atAscii
      by_cases hend : (slice.content.length : Int) ≤ index
      · have hnone : slice.content[index.toNat]? = none := by
          rw [List.getElem?_eq_none_iff]
          omega
        rw [if_pos hend, hnone]
      · have hlt : index.toNat < slice.content.length := by omega
        have hbyte : ((slice.content.take (index.toNat + 1)).drop index.toNat) =
            [slice.content[index.toNat]] := by
          rw [List.drop_take, Nat.add_sub_cancel_left, List.drop_eq_getElem_cons hlt]
          rfl
        rw [if_neg hend, byteRange, if_pos ⟨Nat.le_succ _, hlt⟩, hbyte, List.getElem?_eq_getElem hlt]
        rfl
    case isFalse =>
      unfold atWalking
      split
      · next hgrapheme => simp only [hgrapheme]
      · next hgrapheme => simp only [hgrapheme]

/-- Whatever the header says, a cluster is picked. -/
theorem textAt_eq (h : WellFormed unicode slice) (index : Int) :
    textAt unicode slice index =
      if index < 0 then QnSlice.empty
      else
        match (graphemesOf unicode (textStr slice))[index.toNat]? with
        | some grapheme => allocTextWithCount (encode grapheme) 1
        | none => QnSlice.empty := by
  unfold textAt
  split
  case isTrue => rfl
  case isFalse =>
    split
    case isFalse => rfl
    case isTrue hflag =>
      obtain ⟨hascii, hgraphemes⟩ := graphemes_of_ascii h hflag
      rw [hgraphemes, List.getElem?_map, List.getElem?_map]
      cases hbyte : slice.content[index.toNat]? with
      | none => rfl
      | some b =>
        show allocTextWithCount [b] 1 = allocTextWithCount (encode [asciiChar b]) 1
        rw [encode_asciiChar (hascii b (List.mem_of_getElem? hbyte))]

/-- What is picked is the slice of one cluster. -/
theorem textAt_eq_textSlice (h : WellFormed unicode slice) (index : Int) :
    textAt unicode slice index = textSlice unicode slice index (index + 1) := by
  have hslice : some (textSlice unicode slice index (index + 1)) =
      sliceWalking unicode slice index (index + 1) := by
    rw [← textSliceChecked_eq]
    unfold textSliceChecked
    split
    case isTrue hflag => exact sliceAscii_eq_sliceWalking h hflag _ _
    case isFalse => rfl
  rw [sliceWalking_eq] at hslice
  rw [textAt_eq h, Option.some.inj hslice]
  generalize graphemesOf unicode (textStr slice) = pieces
  by_cases hneg : index < 0
  · have hle : clamp (index + 1) pieces.length ≤ clamp index pieces.length := by
      unfold clamp
      omega
    rw [if_pos hneg, if_pos hle]
  · rw [if_neg hneg]
    by_cases hend : (pieces.length : Int) ≤ index
    · have hle : clamp (index + 1) pieces.length ≤ clamp index pieces.length := by
        unfold clamp
        omega
      have hnone : pieces[index.toNat]? = none := by
        rw [List.getElem?_eq_none_iff]
        omega
      rw [if_pos hle, hnone]
    · have hlt : index.toNat < pieces.length := by omega
      have hlo : clamp index pieces.length = index.toNat := by
        unfold clamp
        omega
      have hhi : clamp (index + 1) pieces.length = index.toNat + 1 := by
        unfold clamp
        omega
      have hone : ((pieces.take (index.toNat + 1)).drop index.toNat).flatten =
          pieces[index.toNat] := by
        rw [List.drop_take, Nat.add_sub_cancel_left, List.drop_eq_getElem_cons hlt]
        exact List.append_nil _
      rw [hlo, hhi, if_neg (by omega), hone, List.getElem?_eq_getElem hlt]
      have hcount : (((index.toNat + 1 : Nat) : Int) - (index.toNat : Int)) = 1 := by omega
      rw [hcount]

/-- The clusters of a text put together are the text, decoded. -/
theorem content_textGraphemes (unicode : Unicode) (slice : QnSlice) :
    (textGraphemes unicode slice).flatMap (·.content) = encode (lossy slice.content) := by
  have hcontent : ∀ parts : List (List Char),
      (textArray unicode parts).flatMap (·.content) = encode parts.flatten := by
    intro parts
    induction parts with
    | nil => rfl
    | cons part parts ih =>
      have hpart : (allocText unicode (encode part)).content = encode part := content_allocText _ _
      rw [List.flatten_cons, encode_append, ← ih, ← hpart]
      rfl
  rw [textGraphemes, hcontent, textStr_eq]
  exact congrArg encode (flatten_graphemes unicode.classOf _)

/-- The two paths of `__text_at` pick the same text. -/
theorem atAscii_eq_atWalking (h : WellFormed unicode slice)
    (hflag : (textHeaderOf slice).flags.asciiAligned = true) {index : Int} (hindex : 0 ≤ index) :
    atAscii slice index = atWalking unicode slice index := by
  obtain ⟨hascii, hgraphemes⟩ := graphemes_of_ascii h hflag
  have hchecked := textAtChecked_eq unicode slice index
  unfold textAtChecked textAt at hchecked
  rw [if_neg (Int.not_lt.mpr hindex), if_neg (Int.not_lt.mpr hindex), if_pos hflag, if_pos hflag]
    at hchecked
  rw [hchecked]
  unfold atWalking
  rw [hgraphemes, List.getElem?_map, List.getElem?_map]
  cases hbyte : slice.content[index.toNat]? with
  | none => rfl
  | some b =>
    show some (allocTextWithCount [b] 1) = some (allocTextWithCount (encode [asciiChar b]) 1)
    rw [encode_asciiChar (hascii b (List.mem_of_getElem? hbyte))]

/-! ### Searching -/

/-- What a search behind the first `k` clusters answers: how many clusters stand before the first
occurrence. -/
def foundBehind (unicode : Unicode) (text sub : List Char) (k : Nat) : Int :=
  let front := ((graphemesOf unicode text).take k).flatten
  let rest := ((graphemesOf unicode text).drop k).flatten
  match strFind rest sub with
  | none => -1
  | some characters => countOf unicode (front ++ rest.take characters)

/-- A search that begins at the offset of a cluster, or at the end, cuts only between characters. -/
theorem findWalking_eq_foundBehind {start : Int} {k : Nat}
    (hk : (graphemeStarts unicode (textStr slice))[clamp start (textHeaderOf slice).count.toNat]?.getD
        (byteLength (textStr slice)) =
      byteLength ((graphemesOf unicode (textStr slice)).take k).flatten) :
    findWalking unicode slice sub start =
      some (foundBehind unicode (textStr slice) (textStr sub) k) := by
  unfold findWalking foundBehind
  dsimp only
  rw [hk]
  have htext : textStr slice = ((graphemesOf unicode (textStr slice)).take k).flatten ++
      ((graphemesOf unicode (textStr slice)).drop k).flatten := by
    rw [← List.flatten_append, List.take_append_drop]
    exact (flatten_graphemes unicode.classOf _).symm
  generalize ((graphemesOf unicode (textStr slice)).take k).flatten = front at htext ⊢
  generalize ((graphemesOf unicode (textStr slice)).drop k).flatten = rest at htext ⊢
  rw [htext, strRange_suffix front rest]
  simp only [Option.bind_eq_bind, Option.bind_some]
  cases hfound : strFind rest (textStr sub) with
  | none => rfl
  | some characters =>
    have hrange := strRange_of_split [] (front ++ rest.take characters) (rest.drop characters)
    rw [List.nil_append, List.append_assoc, List.take_append_drop, byteLength_append] at hrange
    show (strRange (front ++ rest) 0 (byteLength front + byteLength (rest.take characters))).bind
      (fun front => some (countOf unicode front)) = _
    rw [show (0 : Nat) = byteLength [] from rfl, hrange]
    rfl

theorem findWalking_eq (h : WellFormed unicode slice) (sub : QnSlice) (start : Int) :
    findWalking unicode slice sub start =
      some (foundBehind unicode (textStr slice) (textStr sub)
        (clamp start (graphemesOf unicode (textStr slice)).length)) := by
  have hcount : (textHeaderOf slice).count.toNat = (graphemesOf unicode (textStr slice)).length := by
    rw [h.count, textStr_eq]
    rfl
  apply findWalking_eq_foundBehind
  rw [hcount]
  rcases Nat.lt_or_eq_of_le (clamp_le start (graphemesOf unicode (textStr slice)).length)
    with hlt | heq
  · rw [getElem?_graphemeStarts hlt]
    rfl
  · have hnone : (graphemeStarts unicode (textStr slice))[
        (graphemesOf unicode (textStr slice)).length]? = none := by
      rw [List.getElem?_eq_none_iff, length_graphemeStarts]
    rw [heq, hnone, List.take_length]
    exact congrArg byteLength (flatten_graphemes unicode.classOf _).symm

/-- Every offset the search forms is one to cut at, and its two paths answer alike. -/
theorem findAscii_eq_findWalking (h : WellFormed unicode slice)
    (hflag : (textHeaderOf slice).flags.asciiAligned = true) (sub : QnSlice) (start : Int) :
    findAscii slice sub start = findWalking unicode slice sub start := by
  obtain ⟨hascii, hgraphemes⟩ := graphemes_of_ascii h hflag
  have htext : textStr slice = slice.content.map asciiChar := by
    rw [textStr_eq]
    exact lossy_ascii hascii
  have hlength : (graphemesOf unicode (textStr slice)).length = slice.content.length := by
    rw [hgraphemes, List.length_map, List.length_map]
  -- each byte is a character and a cluster of its own
  have hclusters : ∀ k, ((graphemesOf unicode (textStr slice)).take k).flatten =
      (textStr slice).take k := by
    intro k
    rw [hgraphemes, ← List.map_take, flatten_map_singleton, htext]
  have hbytes : ∀ k, k ≤ slice.content.length → byteLength ((textStr slice).take k) = k := by
    intro k hk
    have hencode := encode_ascii fun b hb => hascii b (List.mem_of_mem_take (i := k) hb)
    rw [byteLength_eq, htext, ← List.map_take, hencode, List.length_take, Nat.min_eq_left hk]
  have hcounts : ∀ k, k ≤ slice.content.length → countOf unicode ((textStr slice).take k) = k := by
    intro k hk
    have hpieces := count_pieces unicode (textStr slice) 0 (hlength ▸ hk)
    rwa [List.drop_zero, hclusters] at hpieces
  rw [findWalking_eq h, hlength]
  unfold findAscii foundBehind
  dsimp only
  have hle := clamp_le start slice.content.length
  generalize clamp start slice.content.length = k at hle ⊢
  have hrest : ((graphemesOf unicode (textStr slice)).drop k).flatten = (textStr slice).drop k := by
    rw [hgraphemes, ← List.map_drop, flatten_map_singleton, htext]
  have hrange := strRange_suffix ((textStr slice).take k) ((textStr slice).drop k)
  rw [List.take_append_drop, hbytes k hle] at hrange
  rw [hclusters, hrest, hrange]
  simp only [Option.bind_eq_bind, Option.bind_some]
  cases hfound : strFind ((textStr slice).drop k) (textStr sub) with
  | none => rfl
  | some characters =>
    have hend := strFind_le hfound
    have htextLength : (textStr slice).length = slice.content.length := by
      rw [htext, List.length_map]
    rw [List.length_drop, htextLength] at hend
    have hfront : (textStr slice).take k ++ ((textStr slice).drop k).take characters =
        (textStr slice).take (k + characters) := (List.take_add).symm
    have hoffset : k + byteLength (((textStr slice).drop k).take characters) = k + characters := by
      have hboth := hbytes (k + characters) (by omega)
      rwa [← hfront, byteLength_append, hbytes k hle] at hboth
    show some ((k + byteLength (((textStr slice).drop k).take characters) : Nat) : Int) =
      some (countOf unicode ((textStr slice).take k ++ ((textStr slice).drop k).take characters))
    rw [hoffset, hfront, hcounts _ (by omega)]

theorem textFindFrom_eq (h : WellFormed unicode slice) (sub : QnSlice) (start : Int) :
    textFindFrom unicode slice sub start =
      some (foundBehind unicode (textStr slice) (textStr sub)
        (clamp start (graphemesOf unicode (textStr slice)).length)) := by
  unfold textFindFrom
  split
  case isTrue hflag => rw [findAscii_eq_findWalking h hflag, findWalking_eq h]
  case isFalse => exact findWalking_eq h sub start

/-! ### Indices -/

/-- On a well-formed text the ASCII path of each operation answers what the walking one does, no
operation cuts outside the text or within a character, and slices, picks and clusters are parts of what
the text holds, decoded. -/
theorem texts_index (h : WellFormed unicode slice) (sub : QnSlice) (start stop index : Int) :
    ((textHeaderOf slice).flags.asciiAligned = true →
      sliceAscii slice start stop = sliceWalking unicode slice start stop ∧
      (0 ≤ index → atAscii slice index = atWalking unicode slice index) ∧
      findAscii slice sub start = findWalking unicode slice sub start) ∧
    textSliceChecked unicode slice start stop = some (textSlice unicode slice start stop) ∧
    textAtChecked unicode slice index = some (textAt unicode slice index) ∧
    textFindFrom unicode slice sub start =
      some (foundBehind unicode (textStr slice) (textStr sub)
        (clamp start (graphemesOf unicode (textStr slice)).length)) ∧
    (textConcat unicode (textSlice unicode slice 0 index)
      (textSlice unicode slice index (textHeaderOf slice).count)).content =
        encode (lossy slice.content) ∧
    textAt unicode slice index = textSlice unicode slice index (index + 1) ∧
    (textGraphemes unicode slice).flatMap (·.content) = encode (lossy slice.content) ∧
    ((decode? slice.content).isSome → encode (lossy slice.content) = slice.content) := by
  have hpaths (hflag : (textHeaderOf slice).flags.asciiAligned = true) :=
    And.intro (sliceAscii_eq_sliceWalking h hflag start stop)
      (And.intro (fun hindex : 0 ≤ index => atAscii_eq_atWalking h hflag hindex)
        (findAscii_eq_findWalking h hflag sub start))
  exact ⟨hpaths, textSliceChecked_eq unicode slice start stop, textAtChecked_eq unicode slice index,
    textFindFrom_eq h sub start, content_slices h index, textAt_eq_textSlice h index,
    content_textGraphemes unicode slice, isSome_decode?_iff_encode_lossy.mp⟩

/-- A letter with its accent, cut behind it. -/
theorem texts_index_accent :
    (textConcat latin (textSlice latin (allocText latin (encode ['e', '\u0301', 'x'])) 0 1)
      (textSlice latin (allocText latin (encode ['e', '\u0301', 'x'])) 1
        (textHeaderOf (allocText latin (encode ['e', '\u0301', 'x']))).count)).content =
      encode ['e', '\u0301', 'x'] := by
  have hindices := texts_index (wellFormed_allocText latin (encode ['e', '\u0301', 'x']))
    QnSlice.empty 0 0 1
  have hcontent : (allocText latin (encode ['e', '\u0301', 'x'])).content =
      encode ['e', '\u0301', 'x'] := rfl
  obtain ⟨-, -, -, -, hslices, -, -, -⟩ := hindices
  rwa [hcontent, lossy_encode] at hslices

/-- Of a received byte that is no UTF-8, two slices put together hold the three of U+FFFD. -/
theorem slices_of_illFormed :
    ¬ ∀ (unicode : Unicode) (slice : QnSlice), WellFormed unicode slice → ∀ index : Int,
      (textConcat unicode (textSlice unicode slice 0 index)
        (textSlice unicode slice index (textHeaderOf slice).count)).content = slice.content := by
  intro h
  have hwell : WellFormed latin illFormed := wellFormed_allocText latin [0xFF]
  have hslices := h latin illFormed hwell 0
  rw [content_slices hwell] at hslices
  have hcontent : illFormed.content = [0xFF] := rfl
  have hinvalid := isSome_decode?_iff_encode_lossy.mpr hslices
  have hnone : decodeChar? [0xFF] = none := by decide
  rw [hcontent, decode?, hnone] at hinvalid
  cases hinvalid

end Quilon.Text
