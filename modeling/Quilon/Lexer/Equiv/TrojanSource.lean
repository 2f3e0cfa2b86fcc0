import Quilon.Lexer.Equiv.Controls

/-!
# The Trojan Source guard

A text that lexes, holes and all, closes every scope that it opens (`feedAll_of_accepted`).  Within
a hole, at any depth, the scopes that are open are those the literals around it have opened so far
(`placed_of_within`), so the code outside holes is read with none open.
-/

namespace Quilon.Lexer

open Bidi (ScopeStack bracket)
open Nesting (feedAll Nested)
open Text (isBidiControl)

variable {xid : Xid} {file : Nat} {source : String}

/-- The text lexes, and so does every hole in it, as `parse_hole` has it. -/
inductive Accepted (xid : Xid) (file : Nat) : String → Prop where
  | intro {source : String} {tokens : List Token}
      (hlex : tokenizeInFile xid source file = .ok tokens)
      (hholes : ∀ token ∈ tokens, ∀ chunks, token.kind = .string chunks →
        ∀ src start, .hole src start ∈ chunks → Accepted xid file src) :
      Accepted xid file source

/-- The text itself and the holes in it, at any depth: where they begin, and the literal text before
the hole in each of the literals around it. -/
inductive Within (xid : Xid) (file : Nat) (source : String) :
    String → Nat → List (List Char) → Prop where
  | self : Within xid file source source 0 []
  | hole {outer src : String} {base start : Nat} {enclosing : List (List Char)}
      {tokens : List Token} {token : Token} {earlier later : List StrChunk}
      (h : Within xid file source outer base enclosing)
      (hlex : tokenizeInFile xid outer file = .ok tokens) (htoken : token ∈ tokens)
      (hkind : token.kind = .string (earlier ++ .hole src start :: later)) :
      Within xid file source src (base + start) (enclosing ++ [literalText earlier])

/-- The characters that end at or before byte `offset`. -/
def charsBefore : List Char → Nat → List Char
  | [], _ => []
  | c :: cs, offset => if c.utf8Size ≤ offset then c :: charsBefore cs (offset - c.utf8Size) else []

/-- The scopes that are open at byte `offset`: opened before it, and not closed again. -/
def openScopes (source : String) (offset : Nat) : Except Char ScopeStack :=
  feedAll bracket [] (charsBefore source.toList offset)

/-! ### String lexemes -/

/-- A string lexeme is a row of segments between quotes. -/
theorem exists_segments_of_lexeme {offset : Nat} {cs : List Char} {before after : List Lexeme}
    {lexeme : Lexeme} {chunks : List StrChunk} (h : Splits xid offset cs before lexeme after)
    (hkind : lexeme.kind = .token (.string chunks)) :
    ∃ segments : List Segment, (∀ segment ∈ segments, segment.Valid) ∧
      lexeme.text = '"' :: (segments.flatMap Segment.text ++ ['"']) ∧
      chunks =
        chunksFrom (offset + extent Char.utf8Size (lexemesText before) + 1) [] [] segments ∧
      feedAll bracket [] (segments.flatMap Segment.decoded) = .ok [] := by
  obtain ⟨c, n, hnext, htext⟩ := h.next
  rw [hkind] at hnext
  obtain ⟨rfl, hstring⟩ := sound_of_nextLexeme hnext
  obtain ⟨segments, hreads⟩ := exists_segments hstring
  refine ⟨segments, hreads.valid, ?_, hreads.chunks, hreads.closed⟩
  rw [htext, hreads.take]

/-- The scopes of a literal part, by the chunks. -/
theorem literalText_lexeme {offset : Nat} {cs : List Char} {before after : List Lexeme}
    {lexeme : Lexeme} {chunks : List StrChunk} (h : Splits xid offset cs before lexeme after)
    (hkind : lexeme.kind = .token (.string chunks)) :
    feedAll bracket [] (literalText chunks) = .ok [] := by
  obtain ⟨segments, -, -, rfl, hclosed⟩ := exists_segments_of_lexeme h hkind
  rw [literalText_chunksFrom]
  exact hclosed

theorem feedAll_lexeme {offset : Nat} {cs : List Char} {before after : List Lexeme}
    {lexeme : Lexeme} (h : Splits xid offset cs before lexeme after)
    (hholes : ∀ chunks, lexeme.kind = .token (.string chunks) → ∀ src start,
      .hole src start ∈ chunks → feedAll bracket [] src.toList = .ok []) :
    feedAll bracket [] lexeme.text = .ok [] := by
  obtain ⟨c, n, hnext, htext⟩ := h.next
  have hsound := sound_of_nextLexeme hnext
  cases hkind : lexeme.kind with
  | blank =>
    rw [hkind] at hsound
    rw [htext]
    exact Plain.feedAll hsound []
  | comment =>
    rw [hkind] at hsound
    rw [htext]
    exact hsound
  | token kind =>
    rw [hkind] at hsound
    cases kind with
    | string chunks =>
      obtain ⟨segments, hvalid, hsegments, hchunks, hclosed⟩ := exists_segments_of_lexeme h hkind
      have hinner : ∀ src, .hole src ∈ segments → feedAll bracket [] src = .ok [] := by
        intro src hsrc
        obtain ⟨start, hmem⟩ := mem_chunksFrom
          (offset + extent Char.utf8Size (lexemesText before) + 1) [] [] hsrc
        rw [← hchunks] at hmem
        have hbalanced := hholes chunks hkind _ _ hmem
        rw [String.toList_ofList] at hbalanced
        exact hbalanced
      have hopen : feedAll bracket [] ('"' :: segments.flatMap Segment.text) = .ok [] :=
        (feedAll_segments hvalid hinner []).trans hclosed
      rw [hsegments, ← List.cons_append, Nesting.feedAll_append_ok hopen]
      rfl
    | _ =>
      rw [htext]
      exact Plain.feedAll hsound []

theorem feedAll_lexemes {lexemes : List Lexeme}
    (h : ∀ lexeme ∈ lexemes, feedAll bracket [] lexeme.text = .ok []) :
    feedAll bracket [] (lexemesText lexemes) = .ok [] := by
  induction lexemes with
  | nil => rfl
  | cons lexeme lexemes ih =>
    obtain ⟨hlexeme, hrest⟩ := List.forall_mem_cons.mp h
    rw [lexemesText, List.flatMap_cons, Nesting.feedAll_append_ok hlexeme]
    exact ih hrest

/-! ### Accepted texts -/

theorem Accepted.hole {lexemes : List Lexeme} {lexeme : Lexeme} {chunks : List StrChunk}
    {src : String} {start : Nat} (h : Accepted xid file source)
    (hlexemes : lexemesFrom xid 0 source.toList = .ok lexemes) (hlexeme : lexeme ∈ lexemes)
    (hkind : lexeme.kind = .token (.string chunks)) (hsrc : .hole src start ∈ chunks) :
    Accepted xid file src := by
  obtain ⟨hlex, hholes⟩ := h
  obtain ⟨token, htoken, hsame⟩ := exists_token hlex hlexemes hlexeme hkind nofun
  exact hholes token htoken chunks hsame src start hsrc

theorem Accepted.lexemes (h : Accepted xid file source) :
    ∃ lexemes, lexemesFrom xid 0 source.toList = .ok lexemes := by
  obtain ⟨hlex, -⟩ := h
  obtain ⟨lexemes, hlexemes, -⟩ := bind_ok hlex
  exact ⟨lexemes, hlexemes⟩

/-- What a text that lexes opens, it closes. -/
theorem feedAll_of_accepted (h : Accepted xid file source) :
    feedAll bracket [] source.toList = .ok [] := by
  induction h with
  | @intro source tokens hlex hholes ih =>
    obtain ⟨lexemes, hlexemes⟩ := (Accepted.intro hlex hholes).lexemes
    rw [lexemesFrom_text hlexemes]
    refine feedAll_lexemes fun lexeme hlexeme => ?_
    obtain ⟨before, after, rfl⟩ := List.append_of_mem hlexeme
    refine feedAll_lexeme (lexemesFrom_split hlexemes) fun chunks hkind src start hsrc => ?_
    obtain ⟨token, htoken, hsame⟩ := exists_token hlex hlexemes hlexeme hkind nofun
    exact ih token htoken chunks hsame src start hsrc

theorem feedAll_front {before after : List Lexeme} {lexeme : Lexeme}
    (h : Accepted xid file source)
    (hlexemes : lexemesFrom xid 0 source.toList = .ok (before ++ lexeme :: after)) :
    feedAll bracket [] (lexemesText before) = .ok [] := by
  refine feedAll_lexemes fun front hfront => ?_
  obtain ⟨before, between, rfl⟩ := List.append_of_mem hfront
  rw [List.append_assoc, List.cons_append] at hlexemes
  refine feedAll_lexeme (lexemesFrom_split hlexemes) fun chunks hkind src start hsrc => ?_
  have hmem : front ∈ before ++ front :: (between ++ lexeme :: after) :=
    List.mem_append_right _ List.mem_cons_self
  exact feedAll_of_accepted (h.hole hlexemes hmem hkind hsrc)

/-- Where a hole is in its text, and the scopes that are open there. -/
theorem hole_place {before after : List Lexeme} {lexeme : Lexeme} {earlier later : List StrChunk}
    {src : String} {start : Nat} (h : Accepted xid file source)
    (hlexemes : lexemesFrom xid 0 source.toList = .ok (before ++ lexeme :: after))
    (hkind : lexeme.kind = .token (.string (earlier ++ .hole src start :: later))) :
    ∃ pre post scopes, source.toList = pre ++ (src.toList ++ post) ∧
      extent Char.utf8Size pre = start ∧ feedAll bracket [] pre = .ok scopes ∧
      feedAll bracket [] (literalText earlier) = .ok scopes := by
  have hsplit := lexemesFrom_split hlexemes
  obtain ⟨segments, hvalid, htext, hchunks, hclosed⟩ := exists_segments_of_lexeme hsplit hkind
  obtain ⟨front, back, rfl, hstart, hliteral⟩ := exists_hole hchunks.symm (Nat.zero_le _)
  have hfront : ∀ inner, .hole inner ∈ front → feedAll bracket [] inner = .ok [] := by
    intro inner hinner
    obtain ⟨place, hmem⟩ := mem_chunksFrom
      (0 + extent Char.utf8Size (lexemesText before) + 1) [] []
      (List.mem_append_left (.hole src.toList :: back) hinner)
    rw [← hchunks] at hmem
    have hlexeme : lexeme ∈ before ++ lexeme :: after :=
      List.mem_append_right _ List.mem_cons_self
    have hbalanced := feedAll_of_accepted (h.hole hlexemes hlexeme hkind hmem)
    rw [String.toList_ofList] at hbalanced
    exact hbalanced
  rw [List.flatMap_append] at hclosed
  obtain ⟨scopes, hscopes⟩ := Nesting.exists_of_feedAll_append hclosed
  refine ⟨lexemesText before ++ ('"' :: (front.flatMap Segment.text ++ ['`'])),
    '`' :: (back.flatMap Segment.text ++ ['"']) ++ lexemesText after, scopes, ?_, ?_, ?_, ?_⟩
  · rw [hsplit.text, htext, List.flatMap_append, List.flatMap_cons, Segment.text]
    simp only [List.append_assoc, List.cons_append, List.nil_append]
  · rw [hstart, extent_append, extent_cons, extent_append]
    show _ + (1 + (_ + 1)) = _
    omega
  · rw [Nesting.feedAll_append_ok (feedAll_front h hlexemes)]
    have hopen : feedAll bracket [] ('"' :: front.flatMap Segment.text) = .ok scopes := by
      refine Eq.trans ?_ hscopes
      exact feedAll_segments (fun segment hsegment =>
        hvalid segment (List.mem_append_left _ hsegment)) hfront []
    rw [← List.cons_append, Nesting.feedAll_append_ok hopen]
    rfl
  · rw [hliteral]
    exact hscopes

/-! ### Holes at any depth -/

/-- Where a text is in the source, with the scopes that are open where it begins. -/
structure Placed (xid : Xid) (file : Nat) (source inner : String) (base : Nat)
    (scopes : ScopeStack) (pre post : List Char) : Prop where
  accepted : Accepted xid file inner
  text : source.toList = pre ++ (inner.toList ++ post)
  base : extent Char.utf8Size pre = base
  open_ : feedAll bracket [] pre = .ok scopes

theorem placed_of_within {inner : String} {base : Nat} {enclosing : List (List Char)}
    (haccepted : Accepted xid file source) (h : Within xid file source inner base enclosing) :
    ∃ scopes pre post, Placed xid file source inner base scopes pre post ∧
      feedAll bracket [] enclosing.flatten = .ok scopes := by
  induction h with
  | self =>
    refine ⟨[], [], [], ⟨haccepted, ?_, rfl, rfl⟩, rfl⟩
    rw [List.nil_append, List.append_nil]
  | @hole outer src base start enclosing tokens token earlier later h hlex htoken hkind ih =>
    obtain ⟨scopes, pre, post, hplaced, henclosing⟩ := ih
    obtain ⟨lexemes, hlexemes, ⟨heof, -⟩ | ⟨front, lexeme, back, rfl, hlexeme, -⟩⟩ :=
      exists_lexeme hlex htoken
    · rw [hkind] at heof
      cases heof
    rw [hkind] at hlexeme
    obtain hlexeme | ⟨-, hgt⟩ := hlexeme
    · obtain ⟨before, after, above, htext, hstart, hopen, hliteral⟩ :=
        hole_place hplaced.accepted hlexemes hlexeme
      have habove := Nesting.feedAll_above hopen scopes
      refine ⟨above ++ scopes, pre ++ before, after ++ post, ⟨?_, ?_, ?_, ?_⟩, ?_⟩
      · exact hplaced.accepted.hole hlexemes (List.mem_append_right _ List.mem_cons_self) hlexeme
          (List.mem_append_right _ List.mem_cons_self)
      · rw [hplaced.text, htext]
        simp only [List.append_assoc]
      · rw [extent_append, hplaced.base, hstart]
      · rw [Nesting.feedAll_append_ok hplaced.open_]
        exact habove
      · rw [List.flatten_append, List.flatten_singleton, Nesting.feedAll_append_ok henclosing]
        exact Nesting.feedAll_above hliteral scopes
    · cases hgt

/-! ### Places -/

theorem charsBefore_append (front back : List Char) (offset : Nat) :
    charsBefore (front ++ back) (extent Char.utf8Size front + offset) =
      front ++ charsBefore back offset := by
  induction front with
  | nil => rw [extent_nil, Nat.zero_add, List.nil_append, List.nil_append]
  | cons c front ih =>
    rw [List.cons_append, charsBefore, extent_cons, if_pos (by omega), Nat.add_assoc,
      Nat.add_sub_cancel_left, ih, List.cons_append]

/-- Before a place within some characters stand some of them. -/
theorem charsBefore_within {text : List Char} {offset : Nat}
    (h : offset < extent Char.utf8Size text) (rest : List Char) :
    ∃ k, charsBefore (text ++ rest) offset = text.take k := by
  induction text generalizing offset with
  | nil => exact absurd h (Nat.not_lt_zero _)
  | cons c text ih =>
    rw [List.cons_append, charsBefore]
    by_cases hbefore : c.utf8Size ≤ offset
    · rw [if_pos hbefore]
      rw [extent_cons] at h
      have hlater : offset - c.utf8Size < extent Char.utf8Size text := by omega
      obtain ⟨k, hk⟩ := ih hlater
      exact ⟨k + 1, by rw [hk, List.take_succ_cons]⟩
    · rw [if_neg hbefore]
      exact ⟨0, rfl⟩

/-- At byte `offset` of the source there is a comment, or the literal part of a string literal. -/
def InCommentOrLiteral (xid : Xid) (file : Nat) (source : String) (offset : Nat) : Prop :=
  ∃ inner base enclosing before lexeme after, Within xid file source inner base enclosing ∧
    lexemesFrom xid 0 inner.toList = .ok (before ++ lexeme :: after) ∧
    base + extent Char.utf8Size (lexemesText before) ≤ offset ∧
    offset < base + extent Char.utf8Size (lexemesText before) + extent Char.utf8Size lexeme.text ∧
    (lexeme.kind = .comment ∨ ∃ chunks, lexeme.kind = .token (.string chunks) ∧
      ∀ src start, .hole src start ∈ chunks →
        ¬ (base + start ≤ offset ∧ offset < base + start + extent Char.utf8Size src.toList))

/-- The lexeme of a character. -/
theorem exists_lexeme_of_char {lexemes : List Lexeme} {front back : List Char} {c : Char}
    (h : lexemesText lexemes = front ++ c :: back) :
    ∃ before lexeme after front' back', lexemes = before ++ lexeme :: after ∧
      front = lexemesText before ++ front' ∧ lexeme.text = front' ++ c :: back' := by
  induction lexemes generalizing front with
  | nil =>
    have hlength := congrArg List.length h
    rw [List.length_append] at hlength
    exact absurd hlength (by simp [lexemesText])
  | cons lexeme lexemes ih =>
    rw [lexemesText, List.flatMap_cons] at h
    obtain ⟨front', rfl, hrest⟩ | ⟨more, hmiddle, hmore⟩ := List.append_eq_append_iff.mp h
    · obtain ⟨before, found, after, inner, back', rfl, rfl, hfound⟩ := ih hrest
      refine ⟨lexeme :: before, found, after, inner, back', rfl, ?_, hfound⟩
      rw [← List.append_assoc]
      rfl
    · cases more with
      | nil =>
        have hlater : lexemesText lexemes = [] ++ c :: back := hmore.symm
        obtain ⟨before, found, after, inner, back', rfl, hempty, hfound⟩ := ih hlater
        refine ⟨lexeme :: before, found, after, inner, back', rfl, ?_, hfound⟩
        show front = lexeme.text ++ lexemesText before ++ inner
        rw [List.append_assoc, ← hempty, List.append_nil, hmiddle, List.append_nil]
      | cons d more =>
        obtain ⟨rfl, -⟩ := List.cons.inj hmore
        exact ⟨[], lexeme, lexemes, front, more, rfl, rfl, hmiddle⟩

/-- A control within a text stands in a comment or in a literal part, of the text or of a hole. -/
theorem inCommentOrLiteral_of_control {inner : String} (hinner : Accepted xid file inner)
    {base : Nat} {enclosing : List (List Char)}
    (h : Within xid file source inner base enclosing) {front back : List Char} {c : Char}
    (htext : inner.toList = front ++ c :: back) (hc : isBidiControl c = true) :
    InCommentOrLiteral xid file source (base + extent Char.utf8Size front) := by
  induction hinner generalizing base enclosing front back with
  | @intro inner tokens hlex hholes ih =>
    have haccepted := Accepted.intro hlex hholes
    obtain ⟨lexemes, hlexemes⟩ := haccepted.lexemes
    obtain ⟨before, lexeme, after, front', back', rfl, rfl, hlexeme⟩ :=
      exists_lexeme_of_char ((lexemesFrom_text hlexemes).symm.trans htext)
    have hpos := c.utf8Size_pos
    have hstart : base + extent Char.utf8Size (lexemesText before) ≤
        base + extent Char.utf8Size (lexemesText before ++ front') := by
      rw [extent_append]
      omega
    have hstop : base + extent Char.utf8Size (lexemesText before ++ front') <
        base + extent Char.utf8Size (lexemesText before) + extent Char.utf8Size lexeme.text := by
      rw [hlexeme, extent_append, extent_append, extent_cons]
      omega
    obtain ⟨d, n, hnext, hcut⟩ := (lexemesFrom_split hlexemes).next
    have hsound := sound_of_nextLexeme hnext
    have hmem : c ∈ lexeme.text := by
      rw [hlexeme]
      exact List.mem_append_right _ List.mem_cons_self
    have hplain : ¬ Plain lexeme.text := fun hplain => by
      rw [hplain c hmem] at hc
      cases hc
    cases hkind : lexeme.kind with
    | blank =>
      rw [hkind] at hsound
      rw [hcut] at hplain
      exact absurd hsound hplain
    | comment =>
      exact ⟨inner, base, enclosing, before, lexeme, after, h, hlexemes, hstart, hstop,
        Or.inl hkind⟩
    | token kind =>
      rw [hkind] at hsound
      cases kind with
      | string chunks =>
        by_cases hhole : ∃ src start, .hole src start ∈ chunks ∧
            base + start ≤ base + extent Char.utf8Size (lexemesText before ++ front') ∧
            base + extent Char.utf8Size (lexemesText before ++ front') <
              base + start + extent Char.utf8Size src.toList
        · obtain ⟨src, start, hsrc, hafter, hbefore⟩ := hhole
          obtain ⟨earlier, later, rfl⟩ := List.append_of_mem hsrc
          obtain ⟨token, htoken, hsame⟩ := exists_token hlex hlexemes
            (List.mem_append_right _ List.mem_cons_self) hkind nofun
          obtain ⟨pre, post, -, hplace, hpre, -⟩ := hole_place haccepted hlexemes hkind
          obtain ⟨inside, behind, hfront, hsrctext⟩ := exists_of_middle Char.utf8Size_pos
            (hplace.symm.trans htext) (by omega) (by omega)
          have hdeeper := ih token htoken _ hsame src start hsrc (h.hole hlex htoken hsame) hsrctext
          rw [hfront, extent_append, hpre, ← Nat.add_assoc]
          exact hdeeper
        · refine ⟨inner, base, enclosing, before, lexeme, after, h, hlexemes, hstart, hstop,
            Or.inr ⟨chunks, hkind, fun src start hsrc hin => hhole ⟨src, start, hsrc, hin⟩⟩⟩
      | _ =>
        rw [hcut] at hplain
        exact absurd hsound hplain

/-- Where a token of code stands, the scopes that are open are those of the literals around it. -/
theorem openScopes_of_code {inner : String} {base offset : Nat} {enclosing : List (List Char)}
    (haccepted : Accepted xid file source) (h : Within xid file source inner base enclosing)
    {tokens : List Token} (hlex : tokenizeInFile xid inner file = .ok tokens) {token : Token}
    (htoken : token ∈ tokens) (hkind : ∀ chunks, token.kind ≠ .string chunks)
    (hstart : token.span.start ≤ offset) (hstop : offset < token.span.stop) :
    ∃ scopes, openScopes source (base + offset) = .ok scopes ∧
      feedAll bracket [] enclosing.flatten = .ok scopes := by
  obtain ⟨scopes, pre, post, hplaced, henclosing⟩ := placed_of_within haccepted h
  refine ⟨scopes, ?_, henclosing⟩
  obtain ⟨lexemes, hlexemes, ⟨-, hempty⟩ | ⟨front, lexeme, back, rfl, hlexeme, hfrom, hto⟩⟩ :=
    exists_lexeme hlex htoken
  · omega
  have hsplit := lexemesFrom_split hlexemes
  obtain ⟨c, n, hnext, hcut⟩ := hsplit.next
  have hsound := sound_of_nextLexeme hnext
  have hplain : Plain lexeme.text := by
    obtain hlexeme | ⟨hlexeme, -⟩ := hlexeme
    · rw [hlexeme] at hsound
      rw [hcut]
      cases hcode : token.kind with
      | string chunks => exact absurd hcode (hkind chunks)
      | _ =>
        rw [hcode] at hsound
        exact hsound
    · rw [hlexeme] at hsound
      rw [hcut]
      exact hsound
  obtain ⟨within, rfl⟩ : ∃ within, offset =
      extent Char.utf8Size (lexemesText front) + within :=
    ⟨offset - extent Char.utf8Size (lexemesText front), by omega⟩
  have hwithin : within < extent Char.utf8Size lexeme.text := by omega
  have htext : source.toList =
      (pre ++ lexemesText front) ++ (lexeme.text ++ (lexemesText back ++ post)) := by
    rw [hplaced.text, hsplit.text]
    simp only [List.append_assoc]
  obtain ⟨k, hk⟩ := charsBefore_within hwithin (lexemesText back ++ post)
  have hbase : base + (extent Char.utf8Size (lexemesText front) + within) =
      extent Char.utf8Size (pre ++ lexemesText front) + within := by
    rw [extent_append, hplaced.base, Nat.add_assoc]
  have hfront := Nesting.feedAll_above (feedAll_front hplaced.accepted hlexemes) scopes
  have hopen : feedAll bracket [] (pre ++ lexemesText front) = .ok scopes := by
    rw [Nesting.feedAll_append_ok hplaced.open_]
    exact hfront
  rw [openScopes, htext, hbase, charsBefore_append, hk, Nesting.feedAll_append_ok hopen]
  exact Plain.feedAll (fun d hd => hplain d (List.mem_of_mem_take hd)) scopes

/-- The scopes of comments and literals are closed where these end. -/
theorem nested_of_lexeme {before after : List Lexeme} {lexeme : Lexeme}
    (h : Accepted xid file source)
    (hlexemes : lexemesFrom xid 0 source.toList = .ok (before ++ lexeme :: after)) :
    Nested bracket lexeme.text ∧ ∀ chunks, lexeme.kind = .token (.string chunks) →
      Nested bracket (literalText chunks) := by
  have hsplit := lexemesFrom_split hlexemes
  have hlexeme : lexeme ∈ before ++ lexeme :: after := List.mem_append_right _ List.mem_cons_self
  refine ⟨Nesting.feedAll_nil_iff.mp (feedAll_lexeme hsplit fun chunks hkind src start hsrc => ?_),
    fun chunks hkind => Nesting.feedAll_nil_iff.mp (literalText_lexeme hsplit hkind)⟩
  exact feedAll_of_accepted (h.hole hlexemes hlexeme hkind hsrc)

/-! ### A scope around a hole -/

/-- The ASCII letters, digits and `_`. -/
def asciiXid : Xid where
  start c := c.isAlpha
  continue_ c := c.isAlphanum || c = '_'
  start_ascii _ _ := rfl
  continue_ascii _ _ := rfl
  start_control c hc := by
    have hall : ∀ d ∈ ['\u202A', '\u202B', '\u202D', '\u202E', '\u202C', '\u2066', '\u2067',
        '\u2068', '\u2069', '\u200E', '\u200F', '\u061C'], d.isAlpha = false :=
      List.all_iff_forall_prop.mp (by decide)
    exact hall c (of_decide_eq_true hc)
  continue_control c hc := by
    have hall : ∀ d ∈ ['\u202A', '\u202B', '\u202D', '\u202E', '\u202C', '\u2066', '\u2067',
        '\u2068', '\u2069', '\u200E', '\u200F', '\u061C'],
          (d.isAlphanum || d = '_') = false := List.all_iff_forall_prop.mp (by decide)
    exact hall c (of_decide_eq_true hc)

/-- ``a = "…`b`…"``, with an override around the hole. -/
def aroundHole : String := .ofList ['a', '=', '"', '\u202E', '`', 'b', '`', '\u202C', '"']

theorem lexString_aroundHole : lexString 3 ['\u202E', '`', 'b', '`', '\u202C', '"'] =
    .ok ([.lit "\u202E", .hole "b" 7, .lit "\u202C"], 6) := by
  have hhole : scanHoleEnd ['b', '`', '\u202C', '"'] = .ok 1 := by
    rw [scanHoleEnd, if_neg (by decide), if_neg (by decide), if_neg (by decide), scanHoleEnd,
      if_neg (by decide), if_pos rfl]
    rfl
  have hend : lexStringFrom 12 [.lit "\u202E", .hole "b" 7] ['\u202C'] [] ['"'] =
      .ok ([.lit "\u202E", .hole "b" 7, .lit "\u202C"], 1) := by
    rw [lexStringFrom, if_neg (by decide), if_pos rfl]
    rfl
  have hclose : lexStringFrom 9 [.lit "\u202E", .hole "b" 7] [] [('\u202E', .openEmbedding)]
      ['\u202C', '"'] = .ok ([.lit "\u202E", .hole "b" 7, .lit "\u202C"], 2) := by
    rw [lexStringFrom, if_neg (by decide), if_neg (by decide), if_neg (by decide),
      if_neg (by decide)]
    show (lexStringFrom 12 _ ['\u202C'] [] ['"'] >>= _) = _
    rw [hend]
    rfl
  have hinside : lexStringFrom 6 [] ['\u202E'] [('\u202E', .openEmbedding)]
      ['`', 'b', '`', '\u202C', '"'] =
        .ok ([.lit "\u202E", .hole "b" 7, .lit "\u202C"], 5) := by
    rw [lexStringFrom, if_neg (by decide), if_neg (by decide), if_neg (by decide), if_pos rfl,
      if_neg (by decide), hhole]
    show (lexStringFrom 9 [.lit "\u202E", .hole "b" 7] [] _ ['\u202C', '"'] >>= _) = _
    rw [hclose]
    rfl
  rw [lexString, lexStringFrom, if_neg (by decide), if_neg (by decide), if_neg (by decide),
    if_neg (by decide)]
  show (lexStringFrom 6 [] ['\u202E'] [('\u202E', .openEmbedding)] _ >>= _) = _
  rw [hinside]
  rfl

theorem lexemes_aroundHole : lexemesFrom asciiXid 0 aroundHole.toList =
    .ok [⟨.token .ident, ['a']⟩, ⟨.token .assign, ['=']⟩,
      ⟨.token (.string [.lit "\u202E", .hole "b" 7, .lit "\u202C"]),
        ['"', '\u202E', '`', 'b', '`', '\u202C', '"']⟩] := by
  rw [aroundHole, String.toList_ofList]
  have hword : nextLexeme asciiXid 0 'a' ['=', '"', '\u202E', '`', 'b', '`', '\u202C', '"'] =
    .ok (.token .ident, 0) := rfl
  have hassign : nextLexeme asciiXid 1 '=' ['"', '\u202E', '`', 'b', '`', '\u202C', '"'] =
    .ok (.token .assign, 0) := rfl
  have hstring : nextLexeme asciiXid 2 '"' ['\u202E', '`', 'b', '`', '\u202C', '"'] =
      .ok (.token (.string [.lit "\u202E", .hole "b" 7, .lit "\u202C"]), 6) := by
    rw [nextLexeme, if_neg (by decide), if_neg (by decide), if_neg (by decide), if_neg (by decide),
      if_pos rfl, lexString_aroundHole]
    rfl
  exact lexemesFrom_cons hword (lexemesFrom_cons hassign (lexemesFrom_cons hstring
    (by rw [show List.drop 6 _ = [] from rfl, lexemesFrom])))

theorem tokenize_aroundHole : tokenizeInFile asciiXid aroundHole 0 =
    .ok [⟨.ident, ⟨0, 1, 0⟩, "a", true⟩, ⟨.assign, ⟨1, 2, 0⟩, "=", false⟩,
      ⟨.string [.lit "\u202E", .hole "b" 7, .lit "\u202C"], ⟨2, 13, 0⟩,
        .ofList ['"', '\u202E', '`', 'b', '`', '\u202C', '"'], false⟩,
      ⟨.eof, ⟨13, 13, 0⟩, "", false⟩] := by
  rw [tokenizeInFile, lexemes_aroundHole]
  rfl

theorem tokenize_inHole : tokenizeInFile asciiXid "b" 0 =
    .ok [⟨.ident, ⟨0, 1, 0⟩, "b", true⟩, ⟨.eof, ⟨1, 1, 0⟩, "", false⟩] := by
  have hword : nextLexeme asciiXid 0 'b' [] = .ok (.token .ident, 0) := rfl
  have hlexemes : lexemesFrom asciiXid 0 "b".toList = .ok [⟨.token .ident, ['b']⟩] :=
    lexemesFrom_cons hword (by rw [show List.drop 0 [] = ([] : List Char) from rfl, lexemesFrom])
  rw [tokenizeInFile, hlexemes]
  rfl

theorem accepted_aroundHole : Accepted asciiXid 0 aroundHole := by
  refine .intro tokenize_aroundHole fun token htoken chunks hkind src start hsrc => ?_
  have hchunks : chunks = [.lit "\u202E", .hole "b" 7, .lit "\u202C"] := by
    simp only [List.mem_cons, List.not_mem_nil, or_false] at htoken
    obtain rfl | rfl | rfl | rfl := htoken
    · cases hkind
    · cases hkind
    · exact (TokenKind.string.inj hkind).symm
    · cases hkind
  have hhole : src = "b" := by
    rw [hchunks] at hsrc
    simp only [List.mem_cons, List.not_mem_nil, or_false, reduceCtorEq, false_or] at hsrc
    exact (StrChunk.hole.inj hsrc).1
  rw [hhole]
  refine .intro tokenize_inHole fun token htoken chunks hkind => ?_
  simp only [List.mem_cons, List.not_mem_nil, or_false] at htoken
  obtain rfl | rfl := htoken
  · cases hkind
  · cases hkind

theorem within_aroundHole : Within asciiXid 0 aroundHole "b" 7 [literalText [.lit "\u202E"]] := by
  have hstring : TokenKind.string [.lit "\u202E", .hole "b" 7, .lit "\u202C"] =
      .string ([.lit "\u202E"] ++ .hole "b" 7 :: [.lit "\u202C"]) := rfl
  have hhole := Within.hole .self tokenize_aroundHole
    (List.mem_cons_of_mem _ (List.mem_cons_of_mem _ List.mem_cons_self)) hstring
  exact hhole

/-- The name in the hole is read with the override open. -/
theorem openScopes_aroundHole :
    openScopes aroundHole 7 = .ok [('\u202E', Bidi.Control.openEmbedding)] := by
  rw [openScopes, aroundHole, String.toList_ofList]
  rfl

/-- Scopes can be open around the code of a hole. -/
theorem not_always_closed_in_code : ¬ ∀ (xid : Xid) (file : Nat) (source : String),
    Accepted xid file source → ∀ inner base enclosing, Within xid file source inner base enclosing →
      ∀ tokens, tokenizeInFile xid inner file = .ok tokens → ∀ token ∈ tokens,
        (∀ chunks, token.kind ≠ .string chunks) → ∀ offset, token.span.start ≤ offset →
          offset < token.span.stop → openScopes source (base + offset) = .ok [] := by
  intro h
  have hclosed := h asciiXid 0 aroundHole accepted_aroundHole "b" 7 _ within_aroundHole _
    tokenize_inHole _ List.mem_cons_self nofun 0 (Nat.le_refl _) Nat.one_pos
  rw [Nat.add_zero, openScopes_aroundHole] at hclosed
  cases hclosed

/-- Controls stand in comments and in the literal parts of string literals only; in each of these
the scopes are nested and all closed; and where there is code, none is open but those of the
literal parts before it in the literals around it. -/
theorem trojan_source_guard (xid : Xid) (file : Nat) (source : String)
    (haccepted : Accepted xid file source) :
    (∀ front c back, source.toList = front ++ c :: back → isBidiControl c = true →
      InCommentOrLiteral xid file source (extent Char.utf8Size front)) ∧
    (∀ inner base enclosing, Within xid file source inner base enclosing →
      ∀ before lexeme after, lexemesFrom xid 0 inner.toList = .ok (before ++ lexeme :: after) →
        Nested bracket lexeme.text ∧ ∀ chunks, lexeme.kind = .token (.string chunks) →
          Nested bracket (literalText chunks)) ∧
    (∀ inner base enclosing, Within xid file source inner base enclosing →
      ∀ tokens, tokenizeInFile xid inner file = .ok tokens → ∀ token ∈ tokens,
        (∀ chunks, token.kind ≠ .string chunks) → ∀ offset, token.span.start ≤ offset →
          offset < token.span.stop → ∃ scopes, openScopes source (base + offset) = .ok scopes ∧
            feedAll bracket [] enclosing.flatten = .ok scopes) ∧
    (∀ tokens, tokenizeInFile xid source file = .ok tokens → ∀ token ∈ tokens,
      (∀ chunks, token.kind ≠ .string chunks) → ∀ offset, token.span.start ≤ offset →
        offset < token.span.stop → openScopes source offset = .ok []) := by
  refine ⟨?_, ?_, ?_, ?_⟩
  · intro front c back htext hc
    have hplace := inCommentOrLiteral_of_control haccepted .self htext hc
    rw [Nat.zero_add] at hplace
    exact hplace
  · intro inner base enclosing h before lexeme after hlexemes
    obtain ⟨_, _, _, hplaced, _⟩ := placed_of_within haccepted h
    exact nested_of_lexeme hplaced.accepted hlexemes
  · intro inner base enclosing h tokens hlex token htoken hkind offset hstart hstop
    exact openScopes_of_code haccepted h hlex htoken hkind hstart hstop
  · intro tokens hlex token htoken hkind offset hstart hstop
    obtain ⟨scopes, hscopes, hclosed⟩ :=
      openScopes_of_code haccepted .self hlex htoken hkind hstart hstop
    obtain rfl := Except.ok.inj hclosed
    rw [Nat.zero_add] at hscopes
    exact hscopes

/-- ``a = "…`b`…"`` -/
theorem trojan_source_guard_aroundHole :
    InCommentOrLiteral asciiXid 0 aroundHole 3 ∧ openScopes aroundHole 0 = .ok [] := by
  have h := trojan_source_guard asciiXid 0 aroundHole accepted_aroundHole
  refine ⟨h.1 ['a', '=', '"'] '\u202E' ['`', 'b', '`', '\u202C', '"'] ?_ (by decide), ?_⟩
  · rw [aroundHole, String.toList_ofList]
    rfl
  · exact h.2.2.2 _ tokenize_aroundHole _ List.mem_cons_self nofun 0 (Nat.le_refl _) Nat.one_pos

end Quilon.Lexer
