import Quilon.Runtime.Equiv.Text

/-!
# Joining and repeated concatenation

`__text_join` against `parts[0] + separator + parts[1] + …`.  Both decide at each seam by the last
cluster of what stands before it; `+` looks it up in the text so far, `join` remembers it from piece to
piece.  `textJoin_textChain`: the two make the same text of pieces that each begin a new cluster or go
whole into the one before (`Whole`); `join_remembers_window`: they differ where a piece's first cluster
goes into the one before and the piece goes on behind it.
-/

namespace Quilon.Text

open Utf8

variable {unicode : Unicode}

/-- `parts[0] + separator + parts[1] + …`, and the empty text for no part. -/
def textChain (unicode : Unicode) (parts : List QnSlice) (separator : QnSlice) : QnSlice :=
  match parts with
  | [] => QnSlice.empty
  | part :: rest =>
    rest.foldl (fun chain next => textConcat unicode (textConcat unicode chain separator) next) part

/-- The same bytes behind the same header. -/
def Same (left right : QnSlice) : Prop :=
  left.content = right.content ∧ textHeaderOf left = textHeaderOf right

/-- An ASCII bit that comes as `is_ascii_grapheme_aligned` gives it: over no carriage return, and with
the bit for no bidi control. -/
def Aligned (slice : QnSlice) : Prop :=
  isAscii slice = true → 13 ∉ slice.content ∧ hasNoBidiControls slice = true

/-- The text begins a new cluster behind `front`, or is one cluster and goes whole into the last one. -/
def Fits (unicode : Unicode) (front text : List Char) : Prop :=
  joins (after unicode.classOf [] front) (unicode.classOf (firstChar text)) = true →
    countOf unicode text = 1 ∧ countOf unicode (front ++ text) = countOf unicode front

/-- Each piece that another one stands behind is UTF-8 and fits to what stands before it. -/
def Whole (unicode : Unicode) (front : List Char) : List QnSlice → Prop
  | [] => True
  | piece :: rest =>
    (piece.content ≠ [] → (∃ behind ∈ rest, behind.content ≠ []) →
      (decode? piece.content).isSome ∧ Fits unicode front (lossy piece.content)) ∧
    Whole unicode (front ++ lossy piece.content) rest

/-! ### What `+` leaves in the header -/

section Concat

variable {left right chain piece : QnSlice} {pieces rest : List QnSlice}

theorem textHeaderOf_textConcat (hne : left.content ++ right.content ≠ []) :
    textHeaderOf (textConcat unicode left right) =
      ⟨(headerOfConcat unicode left right).1, inheritedFlags (isAscii left && isAscii right)
        ((isAscii left && isAscii right) ||
          (hasNoBidiControls left && hasNoBidiControls right))⟩ := by
  rw [textConcat_eq, textHeaderOf_allocTextWithHeader hne, headerOfConcat_ascii]

theorem isAscii_textConcat (unicode : Unicode) (left right : QnSlice) :
    isAscii (textConcat unicode left right) = (isAscii left && isAscii right) := by
  by_cases hempty : left.content ++ right.content = []
  · obtain ⟨hleft, hright⟩ := List.append_eq_nil_iff.mp hempty
    simp [isAscii, hleft, hright]
  · conv => lhs; unfold isAscii
    rw [textHeaderOf_textConcat hempty, content_textConcat, decide_eq_false hempty, Bool.false_or]
    rfl

theorem hasNoBidiControls_textConcat (hleft : Aligned left) (hright : Aligned right) :
    hasNoBidiControls (textConcat unicode left right) =
      (hasNoBidiControls left && hasNoBidiControls right) := by
  by_cases hempty : left.content ++ right.content = []
  · obtain ⟨hleft, hright⟩ := List.append_eq_nil_iff.mp hempty
    simp [hasNoBidiControls, hleft, hright]
  · conv => lhs; unfold hasNoBidiControls
    rw [textHeaderOf_textConcat hempty, content_textConcat, decide_eq_false hempty, Bool.false_or]
    show ((isAscii left && isAscii right) || _) = _
    cases hascii : isAscii left && isAscii right with
    | false => rw [Bool.false_or]
    | true =>
      rw [Bool.and_eq_true] at hascii
      rw [(hleft hascii.1).2, (hright hascii.2).2]
      rfl

theorem aligned_textConcat (hleft : Aligned left) (hright : Aligned right) :
    Aligned (textConcat unicode left right) := by
  intro hascii
  rw [isAscii_textConcat, Bool.and_eq_true] at hascii
  obtain ⟨hcr, hnoBidi⟩ := hleft hascii.1
  obtain ⟨hcr', hnoBidi'⟩ := hright hascii.2
  rw [content_textConcat, hasNoBidiControls_textConcat hleft hright, hnoBidi, hnoBidi']
  exact ⟨fun h => (List.mem_append.mp h).elim hcr hcr', rfl⟩

theorem content_chain (unicode : Unicode) (rest : List QnSlice) (chain : QnSlice) :
    (rest.foldl (textConcat unicode) chain).content = chain.content ++ rest.flatMap (·.content) := by
  induction rest generalizing chain with
  | nil => rw [List.foldl_nil, List.flatMap_nil, List.append_nil]
  | cons piece rest ih =>
    rw [List.foldl_cons, ih, content_textConcat, List.flatMap_cons, List.append_assoc]

theorem isAscii_chain (unicode : Unicode) (rest : List QnSlice) (chain : QnSlice) :
    isAscii (rest.foldl (textConcat unicode) chain) = (isAscii chain && rest.all isAscii) := by
  induction rest generalizing chain with
  | nil => rw [List.foldl_nil, List.all_nil, Bool.and_true]
  | cons piece rest ih => rw [List.foldl_cons, ih, isAscii_textConcat, List.all_cons, Bool.and_assoc]

theorem hasNoBidiControls_chain (hchain : Aligned chain) (hrest : ∀ piece ∈ rest, Aligned piece) :
    hasNoBidiControls (rest.foldl (textConcat unicode) chain) =
      (hasNoBidiControls chain && rest.all hasNoBidiControls) := by
  induction rest generalizing chain with
  | nil => rw [List.foldl_nil, List.all_nil, Bool.and_true]
  | cons piece rest ih =>
    have hpiece := hrest piece List.mem_cons_self
    rw [List.foldl_cons, ih (aligned_textConcat hchain hpiece) fun p hp =>
      hrest p (List.mem_cons_of_mem _ hp), hasNoBidiControls_textConcat hchain hpiece, List.all_cons,
      Bool.and_assoc]

/-! ### The seams -/

/-- What `join` knows of the pieces that `chain` is put together from. -/
def Alike (unicode : Unicode) (chain : QnSlice) (known : Option (Int × List Char)) : Prop :=
  if chain.content = [] then known = none ∧ (textHeaderOf chain).count = 0
  else known = some ((textHeaderOf chain).count, lastGrapheme unicode (lossy chain.content))

theorem lastGrapheme_of_trails {front trailing : List Char} (h : Trails unicode front trailing) :
    trailing = lastGrapheme unicode front := by
  unfold lastGrapheme
  rw [h]
  rfl

/-- The first cluster of a text begins with its first character. -/
theorem firstGrapheme_cons (unicode : Unicode) {text : List Char} (hne : text ≠ []) :
    ∃ c cluster, firstGrapheme unicode text = c :: cluster ∧ c = firstChar text := by
  obtain ⟨c, rest, rfl⟩ := List.exists_cons_of_ne_nil hne
  obtain ⟨own, _, _, hhead, _, _⟩ := head?_graphemes unicode.classOf c rest
  have hfirst := head?_firstGrapheme unicode (List.cons_ne_nil c rest)
  exact ⟨c, own, Option.some.inj (hfirst.symm.trans hhead), rfl⟩

/-- The remembered cluster is the last one, as long as the piece fits. -/
theorem trailing_of_fits {front text trailing : List Char} (hne : text ≠ [])
    (htrails : Trails unicode front trailing) (hfits : Fits unicode front text) :
    (if countOf unicode (trailing ++ firstGrapheme unicode text) = 1 then
        trailing ++ firstGrapheme unicode text
      else lastGrapheme unicode text) = lastGrapheme unicode (front ++ text) := by
  by_cases hjoins : joins (after unicode.classOf [] front) (unicode.classOf (firstChar text)) = true
  · obtain ⟨hone, hwhole⟩ := hfits hjoins
    have hzero : startsFrom unicode.classOf (after unicode.classOf [] front) text = 0 := by
      rw [countOf_append] at hwhole
      omega
    rw [firstGrapheme_of_countOf hone, if_pos (by rw [htrails.countOf_append, hzero]; rfl)]
    exact lastGrapheme_of_trails (graphemes_append_of_joins htrails hzero)
  · rw [Bool.not_eq_true] at hjoins
    have hlast := lastGrapheme_of_trails (trails_of_not_joins hjoins hne)
    have htwo : ¬ countOf unicode (trailing ++ firstGrapheme unicode text) = 1 := by
      obtain ⟨c, cluster, hcluster, hc⟩ := firstGrapheme_cons unicode hne
      rw [← hc] at hjoins
      rw [htrails.countOf_append, hcluster, startsFrom_cons_of_not_joins hjoins]
      omega
    rw [if_neg htwo, hlast]

/-- Plain characters that are no carriage return and line feed. -/
theorem neverMerges_of_plain {last first : Char} (hlast : last < graphemeMergeFloor)
    (hcr : last ≠ '\r') (hfirst : first < graphemeMergeFloor) : neverMerges last first = true := by
  unfold neverMerges
  rw [decide_eq_true hlast, decide_eq_true hfirst, beq_false_of_ne hcr]
  rfl

theorem plain_of_aligned {slice : QnSlice} (hascii : isAscii slice = true) (haligned : Aligned slice)
    (hlow : ∀ b ∈ slice.content, b < 128) :
    ∀ c ∈ lossy slice.content, c < graphemeMergeFloor ∧ c ≠ '\r' := by
  intro c hc
  rw [lossy_ascii hlow] at hc
  obtain ⟨b, hb, rfl⟩ := List.mem_map.mp hc
  obtain ⟨hfloor, _, hcr⟩ := asciiChar_facts (hlow b hb)
  refine ⟨hfloor, fun h => (haligned hascii).1 ?_⟩
  rw [← hcr h]
  exact hb

theorem lastChar_mem {text : List Char} (hne : text ≠ []) : lastChar text ∈ text := by
  rw [lastChar, List.getLast?_eq_some_getLast hne]
  exact List.getLast_mem hne

theorem firstChar_mem {text : List Char} (hne : text ≠ []) : firstChar text ∈ text := by
  obtain ⟨c, rest, rfl⟩ := List.exists_cons_of_ne_nil hne
  exact List.mem_cons_self

/-- A chain of pieces that are well-formed holds ASCII where its header says so. -/
def AsciiHeld (slice : QnSlice) : Prop :=
  isAscii slice = true → ∀ b ∈ slice.content, b < 128

theorem asciiHeld_textConcat {left right : QnSlice} (hleft : AsciiHeld left)
    (hright : AsciiHeld right) : AsciiHeld (textConcat unicode left right) := by
  intro hascii b hb
  rw [isAscii_textConcat, Bool.and_eq_true] at hascii
  rw [content_textConcat] at hb
  exact (List.mem_append.mp hb).elim (hleft hascii.1 b) (hright hascii.2 b)

/-- `+` and `join` count the same at a seam, and `join` remembers the last cluster if the piece fits. -/
theorem foldSeam_concat {known : Option (Int × List Char)} (halike : Alike unicode chain known)
    (hheld : AsciiHeld chain) (hchain : Aligned chain) (hpiece : WellFormed unicode piece)
    (haligned : Aligned piece) (hne : piece.content ≠ []) :
    ∃ trailing, foldSeam unicode known (textStr piece) (textHeaderOf piece).count =
        some ((textHeaderOf (textConcat unicode chain piece)).count, trailing) ∧
      ((decode? chain.content).isSome → Fits unicode (lossy chain.content) (lossy piece.content) →
        trailing = lastGrapheme unicode (lossy (chain.content ++ piece.content))) := by
  have htext : lossy piece.content ≠ [] := fun h => hne (lossy_eq_nil_iff.mp h)
  have hboth : chain.content ++ piece.content ≠ [] := List.append_ne_nil_of_right_ne_nil _ hne
  rw [textHeaderOf_textConcat hboth, textStr_eq]
  unfold foldSeam headerOfConcat concatHeader
  rw [if_neg htext]
  unfold Alike at halike
  by_cases hempty : chain.content = []
  · rw [if_pos hempty] at halike
    rw [halike.1, if_pos hempty, hempty, List.nil_append]
    exact ⟨_, rfl, fun _ _ => rfl⟩
  · have hfront : lossy chain.content ≠ [] := fun h => hempty (lossy_eq_nil_iff.mp h)
    have htrails := trails_lastGrapheme unicode hfront
    rw [if_neg hempty] at halike
    rw [halike, if_neg hempty, if_neg hne, textStr_eq, textStr_eq]
    dsimp only
    have hjoined : (decode? chain.content).isSome →
        lossy (chain.content ++ piece.content) = lossy chain.content ++ lossy piece.content :=
      fun hvalid => lossy_append hvalid
    by_cases hnever : neverMerges (lastChar (lastGrapheme unicode (lossy chain.content)))
        (firstChar (lossy piece.content)) = true
    · rw [if_pos hnever]
      refine ⟨_, congrArg some (Prod.ext ?_ rfl), fun hvalid _ => ?_⟩
      · rw [htrails.lastChar] at hnever
        split
        · rfl
        · rw [seamCorrected, if_neg hfront, if_neg htext, if_pos hnever]
      · rw [htrails.lastChar] at hnever
        rw [hjoined hvalid]
        exact lastGrapheme_of_trails (trails_of_not_joins (joins_of_neverMerges' hfront hnever) htext)
    · rw [if_neg hnever]
      refine ⟨_, congrArg some (Prod.ext ?_ rfl), fun hvalid hfits => ?_⟩
      · rw [htrails.lastChar] at hnever
        -- two ASCII sides would never merge
        have hascii : ¬ (isAscii chain && isAscii piece) = true := by
          intro hascii
          rw [Bool.and_eq_true] at hascii
          have hlast := plain_of_aligned hascii.1 hchain (hheld hascii.1) _ (lastChar_mem hfront)
          have hfirst := plain_of_aligned hascii.2 haligned (hpiece.plain hascii.2).1 _
            (firstChar_mem htext)
          exact hnever (neverMerges_of_plain hlast.1 hlast.2 hfirst.1)
        rw [if_neg hascii, seamCorrected, if_neg hfront, if_neg htext, if_neg hnever]
      · rw [hjoined hvalid]
        exact trailing_of_fits htext htrails hfits

/-- An empty piece changes nothing on either side. -/
theorem foldSeam_empty {known : Option (Int × List Char)} (hempty : piece.content = []) :
    foldSeam unicode known (textStr piece) (textHeaderOf piece).count = known := by
  rw [textStr_eq, hempty, lossy_nil]
  rfl

theorem count_concat_empty (hchain : chain.content ≠ []) (hempty : piece.content = []) :
    (textHeaderOf (textConcat unicode chain piece)).count = (textHeaderOf chain).count := by
  rw [textHeaderOf_textConcat (List.append_ne_nil_of_left_ne_nil hchain _)]
  unfold headerOfConcat concatHeader
  rw [if_neg hchain, if_pos hempty]

theorem alike_concat_empty {known : Option (Int × List Char)} (halike : Alike unicode chain known)
    (hempty : piece.content = []) : Alike unicode (textConcat unicode chain piece) known := by
  unfold Alike at halike ⊢
  rw [content_textConcat, hempty, List.append_nil]
  by_cases hchain : chain.content = []
  · have hboth : chain.content ++ piece.content = [] := by rw [hchain, hempty]; rfl
    rw [if_pos hchain] at halike ⊢
    refine ⟨halike.1, ?_⟩
    rw [textConcat_eq, allocTextWithHeader, if_pos hboth]
    rfl
  · rw [if_neg hchain] at halike ⊢
    rw [halike, count_concat_empty hchain hempty]

theorem count_chain_empty (hchain : chain.content ≠ []) (hempty : ∀ piece ∈ rest, piece.content = [])
    (known : Option (Int × List Char)) :
    rest.foldl (fun known piece =>
        foldSeam unicode known (textStr piece) (textHeaderOf piece).count) known = known ∧
      (textHeaderOf (rest.foldl (textConcat unicode) chain)).count = (textHeaderOf chain).count := by
  induction rest generalizing chain with
  | nil => exact ⟨rfl, rfl⟩
  | cons piece rest ih =>
    have hpiece := hempty piece List.mem_cons_self
    have hcontent : (textConcat unicode chain piece).content ≠ [] := by
      rw [content_textConcat]
      exact List.append_ne_nil_of_left_ne_nil hchain _
    obtain ⟨hknown, hcount⟩ := ih hcontent fun p hp => hempty p (List.mem_cons_of_mem _ hp)
    rw [List.foldl_cons, List.foldl_cons, foldSeam_empty hpiece]
    exact ⟨hknown, hcount.trans (count_concat_empty hchain hpiece)⟩

/-- Along pieces that fit, `join` counts what the chain counts. -/
theorem count_chain {known : Option (Int × List Char)} (halike : Alike unicode chain known)
    (hheld : AsciiHeld chain) (hchain : Aligned chain)
    (hvalid : (∃ piece ∈ rest, piece.content ≠ []) → (decode? chain.content).isSome)
    (hwf : ∀ piece ∈ rest, WellFormed unicode piece) (haligned : ∀ piece ∈ rest, Aligned piece)
    (hwhole : Whole unicode (lossy chain.content) rest) :
    ((rest.foldl (fun known piece =>
        foldSeam unicode known (textStr piece) (textHeaderOf piece).count) known).map (·.1)).getD 0 =
      (textHeaderOf (rest.foldl (textConcat unicode) chain)).count := by
  induction rest generalizing chain known with
  | nil =>
    unfold Alike at halike
    split at halike
    · rw [List.foldl_nil, halike.1, List.foldl_nil, halike.2]
      rfl
    · rw [List.foldl_nil, halike]
      rfl
  | cons piece rest ih =>
    have hpiece := hwf piece List.mem_cons_self
    have hpieceAligned := haligned piece List.mem_cons_self
    have hrest := fun p (hp : p ∈ rest) => hwf p (List.mem_cons_of_mem _ hp)
    have hrestAligned := fun p (hp : p ∈ rest) => haligned p (List.mem_cons_of_mem _ hp)
    have hheld' : AsciiHeld (textConcat unicode chain piece) :=
      asciiHeld_textConcat hheld fun h => (hpiece.plain h).1
    have hchain' : Aligned (textConcat unicode chain piece) := aligned_textConcat hchain hpieceAligned
    rw [List.foldl_cons, List.foldl_cons]
    by_cases hempty : piece.content = []
    · have hcontent : (textConcat unicode chain piece).content = chain.content := by
        rw [content_textConcat, hempty, List.append_nil]
      rw [foldSeam_empty hempty]
      refine ih (alike_concat_empty halike hempty) hheld' hchain' (fun hmore => ?_) hrest hrestAligned ?_
      · obtain ⟨p, hp, hne⟩ := hmore
        rw [hcontent]
        exact hvalid ⟨p, List.mem_cons_of_mem _ hp, hne⟩
      · have hbehind := hwhole.2
        rw [hempty, lossy_nil, List.append_nil] at hbehind
        rw [hcontent]
        exact hbehind
    · have hsome := hvalid ⟨piece, List.mem_cons_self, hempty⟩
      have hcontent : (textConcat unicode chain piece).content ≠ [] := by
        rw [content_textConcat]
        exact List.append_ne_nil_of_right_ne_nil _ hempty
      obtain ⟨trailing, hknown, hlast⟩ :=
        foldSeam_concat halike hheld hchain hpiece hpieceAligned hempty
      rw [hknown]
      by_cases hmore : ∃ behind ∈ rest, behind.content ≠ []
      · obtain ⟨hpieceSome, hfits⟩ := hwhole.1 hempty hmore
        refine ih ?_ hheld' hchain' (fun _ => ?_) hrest hrestAligned ?_
        · unfold Alike
          rw [if_neg hcontent, hlast hsome hfits, content_textConcat]
        · rw [content_textConcat]
          exact isSome_decode?_append hsome hpieceSome
        · rw [content_textConcat, lossy_append hsome]
          exact hwhole.2
      · have hrestEmpty : ∀ p ∈ rest, p.content = [] := fun p hp =>
          by_contra fun hne => hmore ⟨p, hp, hne⟩
        obtain ⟨hsame, hcount⟩ := count_chain_empty hcontent hrestEmpty
          (some ((textHeaderOf (textConcat unicode chain piece)).count, trailing))
        rw [hsame, hcount]
        rfl

/-- Where all pieces are ASCII by their headers, `+` adds their counts. -/
theorem count_chain_ascii (hchain : chain.content = [] → (textHeaderOf chain).count = 0)
    (hascii : isAscii chain = true) (hwf : ∀ piece ∈ rest, WellFormed unicode piece)
    (hall : rest.all isAscii = true) :
    (textHeaderOf (rest.foldl (textConcat unicode) chain)).count =
      (textHeaderOf chain).count + (rest.map fun piece => (textHeaderOf piece).count).sum := by
  induction rest generalizing chain with
  | nil => exact (Int.add_zero _).symm
  | cons piece rest ih =>
    rw [List.all_cons, Bool.and_eq_true] at hall
    have hpiece := (hwf piece List.mem_cons_self).count
    have hzero : piece.content = [] → (textHeaderOf piece).count = 0 := by
      intro hempty
      rw [hpiece, hempty, lossy_nil]
      rfl
    have hsum : (textHeaderOf (textConcat unicode chain piece)).count =
        (textHeaderOf chain).count + (textHeaderOf piece).count := by
      by_cases hboth : chain.content ++ piece.content = []
      · obtain ⟨hempty, hempty'⟩ := List.append_eq_nil_iff.mp hboth
        rw [textConcat_eq, allocTextWithHeader, if_pos hboth, hchain hempty, hzero hempty']
        rfl
      · rw [textHeaderOf_textConcat hboth]
        unfold headerOfConcat concatHeader
        by_cases hempty : chain.content = []
        · rw [if_pos hempty, hchain hempty, Int.zero_add]
        · rw [if_neg hempty]
          by_cases hempty' : piece.content = []
          · rw [if_pos hempty', hzero hempty', Int.add_zero]
          · rw [if_neg hempty', hascii, hall.1]
            rfl
    have hchain' : (textConcat unicode chain piece).content = [] →
        (textHeaderOf (textConcat unicode chain piece)).count = 0 := by
      intro hboth
      rw [content_textConcat] at hboth
      rw [hsum, hchain (List.append_eq_nil_iff.mp hboth).1, hzero (List.append_eq_nil_iff.mp hboth).2]
      rfl
    rw [List.foldl_cons, ih hchain' (by rw [isAscii_textConcat, hascii, hall.1]; rfl)
      (fun p hp => hwf p (List.mem_cons_of_mem _ hp)) hall.2, hsum, List.map_cons, List.sum_cons,
      Int.add_assoc]

end Concat

/-! ### The two make the same text -/

section Join

variable {parts : List QnSlice} {separator part : QnSlice}

/-- The header of a text that was allocated: not that of a literal, and of decoded bytes. -/
def Fresh (slice : QnSlice) : Prop :=
  if slice.content = [] then textHeaderOf slice = textHeaderOf QnSlice.empty
  else (textHeaderOf slice).flags.validUtf8 = true ∧ (textHeaderOf slice).flags.literal = false

/-- What `join` and a chain of `+` need to make the same text. -/
def JoinsAlike (unicode : Unicode) (parts : List QnSlice) (separator : QnSlice) : Prop :=
  match parts with
  | [] => True
  | [part] => Fresh part
  | _ =>
    (∀ piece ∈ separator :: parts, Aligned piece) ∧
      Whole unicode [] (parts.intersperse separator)

theorem intersperse_cons (separator part : QnSlice) (rest : List QnSlice) :
    (part :: rest).intersperse separator =
      part :: rest.flatMap fun next => [separator, next] := by
  induction rest generalizing part with
  | nil => rfl
  | cons next rest ih =>
    rw [List.intersperse_cons_cons, ih, List.flatMap_cons]
    rfl

theorem textChain_cons (unicode : Unicode) (separator part : QnSlice) (rest : List QnSlice) :
    textChain unicode (part :: rest) separator =
      (rest.flatMap fun next => [separator, next]).foldl (textConcat unicode) part := by
  rw [List.foldl_flatMap]
  rfl

theorem textHeaderOf_textJoin (hne : (parts.intersperse separator).flatMap (·.content) ≠ []) :
    textHeaderOf (textJoin unicode parts separator) =
      ⟨if (parts.intersperse separator).all isAscii then
          ((parts.intersperse separator).map fun piece => (textHeaderOf piece).count).sum
        else joinCountWithSeams unicode (parts.intersperse separator),
        inheritedFlags ((parts.intersperse separator).all isAscii)
          ((parts.intersperse separator).all hasNoBidiControls)⟩ := by
  unfold textJoin
  exact textHeaderOf_allocTextWithHeader hne _ _

theorem content_textJoin (unicode : Unicode) (parts : List QnSlice) (separator : QnSlice) :
    (textJoin unicode parts separator).content =
      (parts.intersperse separator).flatMap (·.content) := by
  unfold textJoin
  exact content_allocTextWithHeader _ _ _

/-- One part joined is the part itself, under an allocated header. -/
theorem same_textJoin_singleton_iff (unicode : Unicode) (part separator : QnSlice) :
    Same (textJoin unicode [part] separator) (textChain unicode [part] separator) ↔ Fresh part := by
  have hcontent : (textJoin unicode [part] separator).content = part.content := by
    rw [content_textJoin]
    exact List.append_nil _
  show _ ∧ textHeaderOf _ = textHeaderOf part ↔ _
  unfold Fresh
  by_cases hempty : part.content = []
  · rw [if_pos hempty]
    have hjoin : textJoin unicode [part] separator = QnSlice.empty := by
      have hnone : ([part].intersperse separator).flatMap (·.content) = [] := by
        rw [← content_textJoin unicode, hcontent, hempty]
      unfold textJoin
      dsimp only
      rw [hnone]
      rfl
    rw [hjoin]
    exact ⟨fun h => h.2.symm, fun h => ⟨hempty.symm, h.symm⟩⟩
  · rw [if_neg hempty]
    have hne : ([part].intersperse separator).flatMap (·.content) ≠ [] := by
      rw [← content_textJoin unicode, hcontent]
      exact hempty
    have hascii : isAscii part = (textHeaderOf part).flags.asciiAligned := by
      rw [isAscii, decide_eq_false hempty, Bool.false_or]
    have hnoBidi : hasNoBidiControls part = (textHeaderOf part).flags.noBidiControls := by
      rw [hasNoBidiControls, decide_eq_false hempty, Bool.false_or]
    have hcount : (textHeaderOf (textJoin unicode [part] separator)).count =
        (textHeaderOf part).count := by
      rw [textHeaderOf_textJoin hne]
      dsimp only
      split
      · exact Int.add_zero _
      · show ((foldSeam unicode none (textStr part) (textHeaderOf part).count).map (·.1)).getD 0 = _
        unfold foldSeam
        rw [textStr_eq, if_neg fun h => hempty (lossy_eq_nil_iff.mp h)]
        rfl
    have hflags : (textHeaderOf (textJoin unicode [part] separator)).flags =
        ⟨(textHeaderOf part).flags.asciiAligned, true, false,
          (textHeaderOf part).flags.noBidiControls⟩ := by
      rw [textHeaderOf_textJoin hne, ← hascii, ← hnoBidi]
      show inheritedFlags (isAscii part && true) (hasNoBidiControls part && true) = _
      rw [Bool.and_true, Bool.and_true]
      rfl
    constructor
    · intro h
      rw [h.2] at hflags
      rw [hflags]
      exact ⟨rfl, rfl⟩
    · intro h
      refine ⟨hcontent, ?_⟩
      cases hheader : textHeaderOf (textJoin unicode [part] separator) with
      | mk count flags =>
        rw [hheader] at hcount hflags
        rw [show count = _ from hcount, show flags = _ from hflags, ← h.1, ← h.2]

/-- The header of a chain, read back. -/
theorem textHeaderOf_chain {chain : QnSlice} {rest : List QnSlice} (hsome : rest ≠ []) :
    textHeaderOf (rest.foldl (textConcat unicode) chain) =
      if (rest.foldl (textConcat unicode) chain).content = [] then textHeaderOf QnSlice.empty
      else ⟨(textHeaderOf (rest.foldl (textConcat unicode) chain)).count,
        inheritedFlags (isAscii (rest.foldl (textConcat unicode) chain))
          (hasNoBidiControls (rest.foldl (textConcat unicode) chain))⟩ := by
  obtain ⟨front, last, rfl⟩ := (List.eq_nil_or_concat' rest).resolve_left hsome
  rw [List.foldl_append, List.foldl_cons, List.foldl_nil]
  by_cases hempty : (textConcat unicode (front.foldl (textConcat unicode) chain) last).content = []
  · rw [if_pos hempty, textConcat_eq, ← content_textConcat unicode, hempty]
    rfl
  · rw [if_neg hempty]
    unfold isAscii hasNoBidiControls
    rw [decide_eq_false hempty, Bool.false_or, Bool.false_or]
    rw [content_textConcat] at hempty
    rw [textHeaderOf_textConcat hempty]
    rfl

theorem alike_start (hpart : WellFormed unicode part) :
    Alike unicode part (foldSeam unicode none (textStr part) (textHeaderOf part).count) := by
  unfold Alike foldSeam
  rw [textStr_eq]
  by_cases hempty : part.content = []
  · rw [if_pos hempty, hempty, lossy_nil, if_pos rfl, hpart.count, hempty, lossy_nil]
    exact ⟨rfl, rfl⟩
  · rw [if_neg hempty, if_neg fun h => hempty (lossy_eq_nil_iff.mp h)]

/-- Two parts and more. -/
theorem same_textJoin_of_whole {rest : List QnSlice} (hsome : rest ≠ [])
    (hpieces : parts.intersperse separator = part :: rest)
    (hwf : ∀ piece ∈ part :: rest, WellFormed unicode piece)
    (haligned : ∀ piece ∈ part :: rest, Aligned piece) (hwhole : Whole unicode [] (part :: rest)) :
    Same (textJoin unicode parts separator) (rest.foldl (textConcat unicode) part) := by
  have hpart := hwf part List.mem_cons_self
  have hpartAligned := haligned part List.mem_cons_self
  have hrest := fun p (hp : p ∈ rest) => hwf p (List.mem_cons_of_mem _ hp)
  have hrestAligned := fun p (hp : p ∈ rest) => haligned p (List.mem_cons_of_mem _ hp)
  have hcontent : (textJoin unicode parts separator).content =
      (rest.foldl (textConcat unicode) part).content := by
    rw [content_textJoin, content_chain, hpieces, List.flatMap_cons]
  refine ⟨hcontent, ?_⟩
  rw [textHeaderOf_chain hsome]
  by_cases hempty : (rest.foldl (textConcat unicode) part).content = []
  · rw [if_pos hempty]
    rw [← hcontent, content_textJoin] at hempty
    unfold textJoin
    dsimp only
    rw [hempty]
    rfl
  · rw [if_neg hempty]
    rw [← hcontent, content_textJoin] at hempty
    rw [textHeaderOf_textJoin hempty, hpieces, isAscii_chain, hasNoBidiControls_chain hpartAligned
      hrestAligned, List.all_cons, List.all_cons]
    refine congrArg (Header.mk · _) ?_
    split
    case isTrue hascii =>
      rw [Bool.and_eq_true] at hascii
      have hzero : part.content = [] → (textHeaderOf part).count = 0 := by
        intro hnil
        rw [hpart.count, hnil, lossy_nil]
        rfl
      rw [List.map_cons, List.sum_cons, count_chain_ascii hzero hascii.1 hrest hascii.2]
    case isFalse =>
      have hheld : AsciiHeld part := fun h => (hpart.plain h).1
      have hvalid : (∃ piece ∈ rest, piece.content ≠ []) → (decode? part.content).isSome := by
        intro hmore
        by_cases hnil : part.content = []
        · rw [hnil]
          exact isSome_decode?_encode []
        · exact (hwhole.1 hnil hmore).1
      unfold joinCountWithSeams
      rw [List.foldl_cons]
      exact count_chain (alike_start hpart) hheld hpartAligned hvalid hrest hrestAligned hwhole.2

end Join

/-! ### Allocated texts -/

theorem textHeader_ascii (unicode : Unicode) (bytes : List UInt8) :
    (textHeader unicode bytes).flags.asciiAligned = isAsciiGraphemeAligned bytes ∧
      (isAsciiGraphemeAligned bytes = true →
        (textHeader unicode bytes).flags.noBidiControls = true) := by
  unfold textHeader
  cases h : isAsciiGraphemeAligned bytes with
  | true => exact ⟨rfl, fun _ => rfl⟩
  | false =>
    rw [if_neg Bool.false_ne_true]
    refine ⟨?_, nofun⟩
    dsimp only
    split <;> rfl

theorem isAscii_allocText (unicode : Unicode) (bytes : List UInt8) :
    isAscii (allocText unicode bytes) = isAsciiGraphemeAligned bytes := by
  unfold isAscii allocText
  rw [content_allocTextWithHeader]
  by_cases hempty : bytes = []
  · rw [hempty]
    rfl
  · rw [textHeaderOf_allocTextWithHeader hempty, decide_eq_false hempty, Bool.false_or]
    exact (textHeader_ascii unicode bytes).1

/-- What `alloc_text` makes comes with its bits aligned. -/
theorem aligned_allocText (unicode : Unicode) (bytes : List UInt8) :
    Aligned (allocText unicode bytes) := by
  intro hascii
  rw [isAscii_allocText] at hascii
  unfold hasNoBidiControls allocText
  rw [content_allocTextWithHeader]
  refine ⟨(isAsciiGraphemeAligned_iff.mp hascii).2, ?_⟩
  by_cases hempty : bytes = []
  · rw [hempty]
    rfl
  · rw [textHeaderOf_allocTextWithHeader hempty, (textHeader_ascii unicode bytes).2 hascii, Bool.or_true]

theorem aligned_alloc {bytes : List UInt8} {count : Int} {flags : Flags}
    (h : flags.asciiAligned = true → 13 ∉ bytes ∧ flags.noBidiControls = true) :
    Aligned (allocTextWithHeader bytes count flags) := by
  intro hascii
  unfold isAscii at hascii
  unfold hasNoBidiControls
  rw [content_allocTextWithHeader] at hascii ⊢
  by_cases hempty : bytes = []
  · rw [hempty]
    exact ⟨List.not_mem_nil, rfl⟩
  · rw [textHeaderOf_allocTextWithHeader hempty, decide_eq_false hempty, Bool.false_or] at hascii ⊢
    exact h hascii

theorem aligned_allocTextWithCount (bytes : List UInt8) (count : Int) :
    Aligned (allocTextWithCount bytes count) := by
  refine aligned_alloc fun hflag => ?_
  split at hflag
  case isTrue haligned =>
    rw [if_pos haligned]
    exact ⟨(isAsciiGraphemeAligned_iff.mp haligned).2, rfl⟩
  case isFalse => exact absurd hflag Bool.false_ne_true

theorem aligned_textJoin {parts : List QnSlice} {separator : QnSlice}
    (hpieces : ∀ piece ∈ separator :: parts, Aligned piece) :
    Aligned (textJoin unicode parts separator) := by
  unfold textJoin
  refine aligned_alloc fun hall => ?_
  have heach : ∀ piece ∈ parts.intersperse separator,
      13 ∉ piece.content ∧ hasNoBidiControls piece = true := by
    intro piece hpiece
    have hmem : piece ∈ separator :: parts := List.mem_cons.mpr (mem_of_mem_intersperse hpiece)
    exact hpieces piece hmem (List.all_eq_true.mp hall piece hpiece)
  refine ⟨fun hcr => ?_, List.all_eq_true.mpr fun piece hpiece => (heach piece hpiece).2⟩
  obtain ⟨piece, hpiece, hcr⟩ := List.mem_flatMap.mp hcr
  exact (heach piece hpiece).1 hcr

/-- Every operation makes texts whose bits are aligned out of such texts. -/
theorem aligned_results {op : Operation} {made : List QnSlice}
    (hoperands : ∀ slice ∈ op.operands, Aligned slice) (hmade : op.results unicode = some made) :
    ∀ slice ∈ made, Aligned slice := by
  have hone : ∀ {result : QnSlice}, Aligned result → some [result] = some made →
      ∀ slice ∈ made, Aligned slice := by
    intro result hresult hsome slice hslice
    rw [← Option.some.inj hsome] at hslice
    rwa [List.mem_singleton.mp hslice]
  have hmany : ∀ {texts : List (List Char)}, some (textArray unicode texts) = some made →
      ∀ slice ∈ made, Aligned slice := by
    intro texts hsome slice hslice
    rw [← Option.some.inj hsome] at hslice
    obtain ⟨text, _, rfl⟩ := List.mem_map.mp hslice
    exact aligned_allocText unicode _
  have hempty : Aligned QnSlice.empty := fun _ => ⟨List.not_mem_nil, rfl⟩
  cases op with
  | literal bytes =>
    refine hone (fun hascii => ?_) hmade
    unfold isAscii literalText at hascii
    unfold hasNoBidiControls literalText
    dsimp only at hascii ⊢
    rw [Bool.or_eq_true, decide_eq_true_iff] at hascii
    rcases hascii with hnil | hascii
    · rw [hnil]
      exact ⟨List.not_mem_nil, rfl⟩
    · have hflag : isAsciiGraphemeAligned bytes = true :=
        (textHeader_ascii unicode bytes).1.symm.trans hascii
      have hnoBidi := (textHeader_ascii unicode bytes).2 hflag
      refine ⟨(isAsciiGraphemeAligned_iff.mp hflag).2, ?_⟩
      rw [Bool.or_eq_true]
      exact .inr hnoBidi
  | received bytes => exact hone (aligned_allocText unicode bytes) hmade
  | concat left right =>
    have hleft := hoperands left List.mem_cons_self
    have hright := hoperands right (List.mem_cons_of_mem _ List.mem_cons_self)
    exact hone (aligned_textConcat hleft hright) hmade
  | join parts separator => exact hone (aligned_textJoin hoperands) hmade
  | slice text start stop =>
    refine hone ?_ hmade
    unfold textSlice
    dsimp only
    split <;> split
    · exact hempty
    · exact aligned_allocTextWithCount _ _
    · exact hempty
    · exact aligned_allocTextWithCount _ _
  | «at» text index =>
    refine hone ?_ hmade
    unfold textAt
    split
    · exact hempty
    · split <;> split
      · exact hempty
      · exact aligned_allocTextWithCount _ _
      · exact aligned_allocTextWithCount _ _
      · exact hempty
  | graphemes text => exact hmany hmade
  | split text separator =>
    have hsplit : some (textSplit unicode text separator) = some made := hmade
    unfold textSplit at hsplit
    split at hsplit
    · exact hmany hsplit
    · exact hmany hsplit
  | replace text from_ to_ count =>
    have hsome : (textReplace unicode text from_ to_ count).toOption.map ([·]) = some made := hmade
    unfold textReplace at hsome
    cases hreplaced : replaceText (textStr text) (textStr from_) (textStr to_) count with
    | error =>
      rw [hreplaced] at hsome
      cases hsome
    | ok replaced =>
      rw [hreplaced] at hsome
      exact hone (aligned_allocText unicode _) hsome
  | replaceAll text from_ to_ =>
    have hreplaced : (textReplaceAll unicode text from_ to_).toOption.map ([·]) = some made := hmade
    unfold textReplaceAll at hreplaced
    split at hreplaced
    · cases hreplaced
    · exact hone (aligned_allocText unicode _) hreplaced
  | trimStart text => exact hone (aligned_allocText unicode _) hmade
  | trimEnd text => exact hone (aligned_allocText unicode _) hmade
  | toUpper text => exact hone (aligned_allocText unicode _) hmade
  | toLower text => exact hone (aligned_allocText unicode _) hmade

/-! ### Two lists -/

/-- A text allocated from characters. -/
def latinText (text : List Char) : QnSlice := allocText latin (encode text)

theorem wellFormed_latinText (text : List Char) : WellFormed latin (latinText text) :=
  wellFormed_allocText latin _

theorem content_latinText (text : List Char) : (latinText text).content = encode text :=
  content_allocText latin _

theorem count_latinText (text : List Char) :
    (textHeaderOf (latinText text)).count = countOf latin text := by
  rw [(wellFormed_latinText text).count, content_latinText, lossy_encode]

theorem encode_ne_nil {text : List Char} (h : text ≠ []) : encode text ≠ [] := by
  intro hnil
  apply h
  rw [← lossy_encode text, hnil, lossy_nil]

theorem headerOfConcat_latinText {left : QnSlice} {front text : List Char}
    (hleft : left.content = encode front) (hfront : front ≠ []) (htext : text ≠ [])
    (hascii : (isAscii left && isAscii (latinText text)) = false) :
    (headerOfConcat latin left (latinText text)).1 =
      (seamCorrected latin front (textHeaderOf left).count (isAscii left) text (countOf latin text)
        (isAscii (latinText text))).1 := by
  unfold headerOfConcat concatHeader
  rw [if_neg (by rw [hleft]; exact encode_ne_nil hfront),
    if_neg (by rw [content_latinText]; exact encode_ne_nil htext), hascii,
    if_neg Bool.false_ne_true, textStr_eq, textStr_eq, hleft, content_latinText, lossy_encode,
    lossy_encode, count_latinText]

end Quilon.Text
