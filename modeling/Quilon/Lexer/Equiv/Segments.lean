import Quilon.Lexer.Tokenize
import Quilon.Library.Results

/-!
# The inside of a string literal

A literal that lexes is a row of segments up to its closing quote (`exists_segments`): the chunks
are those of the segments (`chunksFrom`), and the scopes that its literal parts open are closed
again.
-/

namespace Quilon.Lexer

open Bidi (ScopeStack bracket)
open Nesting (feedAll)

/-- What `lexString` takes in one turn. -/
inductive Segment where
  | char (c : Char)
  | escape (e : Char)
  | doubled
  | hole (src : List Char)

namespace Segment

def text : Segment → List Char
  | .char c => [c]
  | .escape e => ['\\', e]
  | .doubled => ['`', '`']
  | .hole src => '`' :: src ++ ['`']

/-- What the segment adds to the literal text. -/
def decoded : Segment → List Char
  | .char c => [c]
  | .escape e => (escaped e).toList
  | .doubled => ['`']
  | .hole _ => []

/-- The segments a literal can have. -/
def Valid : Segment → Prop
  | .char c => isNewline c = false ∧ c ≠ '"' ∧ c ≠ '\\' ∧ c ≠ '`'
  | .escape e => isNewline e = false ∧ (escaped e).isSome
  | .doubled => True
  | .hole src => src.head? ≠ some '`' ∧ src.all isWhiteSpace = false

end Segment

/-- The chunks of segments that begin at byte `offset`. -/
def chunksFrom (offset : Nat) (chunks : List StrChunk) (lit : List Char) :
    List Segment → List StrChunk
  | [] => if lit ≠ [] ∨ chunks = [] then chunks ++ [.lit (.ofList lit)] else chunks
  | .char c :: segments => chunksFrom (offset + c.utf8Size) chunks (lit ++ [c]) segments
  | .escape e :: segments =>
    chunksFrom (offset + 1 + e.utf8Size) chunks (lit ++ (escaped e).toList) segments
  | .doubled :: segments => chunksFrom (offset + 2) chunks (lit ++ ['`']) segments
  | .hole src :: segments =>
    chunksFrom (offset + 1 + extent Char.utf8Size src + 1)
      (chunks ++ flushLit lit ++ [.hole (.ofList src) (offset + 1)]) [] segments

/-! ### Holes -/

mutual

theorem scanHoleEnd_spec {cs : List Char} {n : Nat} (h : scanHoleEnd cs = .ok n) :
    n < cs.length ∧ cs[n]? = some '`' := by
  cases cs with
  | nil =>
    rw [scanHoleEnd] at h
    cases h
  | cons c cs =>
    rw [scanHoleEnd] at h
    by_cases hnewline : isNewline c = true
    · rw [if_pos hnewline] at h
      cases h
    rw [if_neg hnewline] at h
    by_cases hback : c = '`'
    · rw [if_pos hback] at h
      obtain rfl := Except.ok.inj h
      exact ⟨Nat.succ_pos _, by rw [hback]; rfl⟩
    rw [if_neg hback] at h
    by_cases hquote : c = '"'
    · rw [if_pos hquote] at h
      obtain ⟨skipped, hskipped, h⟩ := bind_ok h
      obtain ⟨rest, hrest, h⟩ := bind_ok h
      obtain rfl := Except.ok.inj h
      have hin := scanStringEnd_le hskipped
      obtain ⟨hlt, hget⟩ := scanHoleEnd_spec hrest
      rw [List.length_drop] at hlt
      rw [List.getElem?_drop] at hget
      refine ⟨?_, ?_⟩
      · rw [List.length_cons]
        omega
      · rw [show 1 + skipped + rest = skipped + rest + 1 by omega, List.getElem?_cons_succ, hget]
    · rw [if_neg hquote] at h
      obtain ⟨rest, hrest, h⟩ := bind_ok h
      obtain rfl := Except.ok.inj h
      obtain ⟨hlt, hget⟩ := scanHoleEnd_spec hrest
      refine ⟨?_, ?_⟩
      · rw [List.length_cons]
        omega
      · rw [Nat.add_comm, List.getElem?_cons_succ, hget]
termination_by cs.length

theorem scanStringEnd_le {cs : List Char} {n : Nat} (h : scanStringEnd cs = .ok n) :
    0 < n ∧ n ≤ cs.length := by
  cases cs with
  | nil =>
    rw [scanStringEnd] at h
    cases h
  | cons c cs =>
    rw [scanStringEnd] at h
    rw [List.length_cons]
    by_cases hnewline : isNewline c = true
    · rw [if_pos hnewline] at h
      cases h
    rw [if_neg hnewline] at h
    by_cases hescape : c = '\\'
    · rw [if_pos hescape] at h
      by_cases hbroken : cs.head?.any isNewline = true
      · rw [if_pos hbroken] at h
        cases h
      rw [if_neg hbroken] at h
      obtain ⟨rest, hrest, h⟩ := bind_ok h
      obtain rfl := Except.ok.inj h
      have hle := scanStringEnd_le hrest
      rw [List.length_drop] at hle
      omega
    rw [if_neg hescape] at h
    by_cases hquote : c = '"'
    · rw [if_pos hquote] at h
      obtain rfl := Except.ok.inj h
      omega
    rw [if_neg hquote] at h
    by_cases hback : c = '`'
    · rw [if_pos hback] at h
      by_cases hdoubled : cs.head? = some '`'
      · rw [if_pos hdoubled] at h
        obtain ⟨rest, hrest, h⟩ := bind_ok h
        obtain rfl := Except.ok.inj h
        have hle := scanStringEnd_le hrest
        rw [List.length_drop] at hle
        omega
      · rw [if_neg hdoubled] at h
        obtain ⟨hole, hhole, h⟩ := bind_ok h
        obtain ⟨rest, hrest, h⟩ := bind_ok h
        obtain rfl := Except.ok.inj h
        have hle := scanStringEnd_le hrest
        rw [List.length_drop] at hle
        omega
    · rw [if_neg hback] at h
      obtain ⟨rest, hrest, h⟩ := bind_ok h
      obtain rfl := Except.ok.inj h
      have hle := scanStringEnd_le hrest
      omega
termination_by cs.length

end

/-- A hole ends at the backtick that is found. -/
theorem eq_of_scanHoleEnd {cs : List Char} {n : Nat} (h : scanHoleEnd cs = .ok n) :
    cs = cs.take n ++ '`' :: cs.drop (n + 1) := by
  obtain ⟨hlt, hget⟩ := scanHoleEnd_spec h
  conv => lhs; rw [← List.take_append_drop n cs, List.drop_eq_getElem_cons hlt]
  rw [List.getElem?_eq_getElem hlt, Option.some.injEq] at hget
  rw [hget]

/-! ### Literals -/

theorem bracket_escaped {e decoded : Char} (h : escaped e = some decoded) :
    bracket decoded = none := by
  revert h
  fun_cases escaped e with
  | case8 => nofun
  | _ =>
    intro h
    obtain rfl := Option.some.inj h
    rfl

/-- The characters are those of segments, up to the closing quote behind them. -/
structure Reads (offset : Nat) (chunks : List StrChunk) (lit : List Char) (scopes : ScopeStack)
    (rem : List Char) (result : List StrChunk) (n : Nat) (segments : List Segment) : Prop where
  valid : ∀ segment ∈ segments, segment.Valid
  text : rem = segments.flatMap Segment.text ++ '"' :: rem.drop n
  length : n = (segments.flatMap Segment.text).length + 1
  chunks : result = chunksFrom offset chunks lit segments
  closed : feedAll bracket scopes (segments.flatMap Segment.decoded) = .ok []

theorem Reads.cons {offset offset' n : Nat} {chunks chunks' result : List StrChunk}
    {lit lit' rem : List Char} {scopes scopes' : ScopeStack} {segments : List Segment}
    (h : Reads offset' chunks' lit' scopes' rem result n segments) {segment : Segment}
    (hvalid : segment.Valid)
    (hchunks : chunksFrom offset chunks lit (segment :: segments) =
      chunksFrom offset' chunks' lit' segments)
    (hfeed : feedAll bracket scopes segment.decoded = .ok scopes') :
    Reads offset chunks lit scopes (segment.text ++ rem) result (segment.text.length + n)
      (segment :: segments) where
  valid := List.forall_mem_cons.mpr ⟨hvalid, h.valid⟩
  text := by
    rw [List.drop_append, List.drop_eq_nil_of_le (Nat.le_add_right _ n), List.nil_append,
      Nat.add_sub_cancel_left, List.flatMap_cons, List.append_assoc, ← h.text]
  length := by rw [h.length, List.flatMap_cons, List.length_append, Nat.add_assoc]
  chunks := by rw [hchunks, h.chunks]
  closed := by rw [List.flatMap_cons, Nesting.feedAll_append_ok hfeed, h.closed]

theorem Reads.take {offset n : Nat} {chunks result : List StrChunk} {lit rem : List Char}
    {scopes : ScopeStack} {segments : List Segment}
    (h : Reads offset chunks lit scopes rem result n segments) :
    rem.take n = segments.flatMap Segment.text ++ ['"'] := by
  have htake := congrArg (List.take n) h.text
  rw [htake, h.length, List.take_append, List.take_of_length_le (Nat.le_succ _),
    Nat.add_sub_cancel_left]
  rfl

/-- A literal that lexes, as a row of segments. -/
theorem exists_segments {offset n : Nat} {chunks result : List StrChunk} {lit rem : List Char}
    {scopes : ScopeStack} (h : lexStringFrom offset chunks lit scopes rem = .ok (result, n)) :
    ∃ segments, Reads offset chunks lit scopes rem result n segments := by
  fun_induction lexStringFrom offset chunks lit scopes rem generalizing result n with
  | case4 offset chunks lit scopes cs hclosed hpending =>
    obtain ⟨rfl, rfl⟩ := Prod.mk.inj (Except.ok.inj h)
    refine ⟨[], nofun, rfl, rfl, ?_, ?_⟩
    · rw [chunksFrom, if_pos hpending]
    · rw [Bidi.unclosed_eq_none.mp hclosed]
      rfl
  | case5 offset chunks lit scopes cs hclosed hpending =>
    obtain ⟨rfl, rfl⟩ := Prod.mk.inj (Except.ok.inj h)
    refine ⟨[], nofun, rfl, rfl, ?_, ?_⟩
    · rw [chunksFrom, if_neg hpending]
    · rw [Bidi.unclosed_eq_none.mp hclosed]
      rfl
  | case9 offset chunks lit scopes e cs hnewline decoded hdecoded _ _ ih =>
    obtain ⟨⟨_, m⟩, hrest, h⟩ := bind_ok h
    obtain ⟨rfl, rfl⟩ := Prod.mk.inj (Except.ok.inj h)
    obtain ⟨segments, hreads⟩ := ih hrest
    have hvalid : (Segment.escape e).Valid :=
      ⟨Bool.eq_false_iff.mpr hnewline, by rw [hdecoded]; rfl⟩
    refine ⟨_, hreads.cons hvalid ?_ ?_⟩
    · rw [chunksFrom, hdecoded]
      rfl
    · rw [Segment.decoded, hdecoded]
      exact Nesting.feedAll_unmarked (List.forall_mem_singleton.mpr (bracket_escaped hdecoded))
  | case10 offset chunks lit scopes cs hdoubled _ _ _ ih =>
    obtain ⟨⟨_, m⟩, hrest, h⟩ := bind_ok h
    obtain ⟨rfl, rfl⟩ := Prod.mk.inj (Except.ok.inj h)
    obtain ⟨segments, hreads⟩ := ih hrest
    obtain ⟨cs, rfl⟩ : ∃ rest, cs = '`' :: rest := List.head?_eq_some_iff.mp hdoubled
    have hvalid : Segment.doubled.Valid := trivial
    exact ⟨_, hreads.cons hvalid rfl rfl⟩
  | case11 offset chunks lit scopes cs hdoubled _ _ _ ih =>
    obtain ⟨hole, hhole, h⟩ := bind_ok h
    dsimp only at h
    by_cases hempty : (cs.take hole).all isWhiteSpace = true
    · rw [if_pos hempty] at h
      cases h
    · rw [if_neg hempty] at h
      obtain ⟨⟨_, m⟩, hrest, h⟩ := bind_ok h
      obtain ⟨rfl, rfl⟩ := Prod.mk.inj (Except.ok.inj h)
      obtain ⟨segments, hreads⟩ := ih hole hrest
      have hcs := eq_of_scanHoleEnd hhole
      obtain ⟨hlt, -⟩ := scanHoleEnd_spec hhole
      have hvalid : (Segment.hole (cs.take hole)).Valid := by
        refine ⟨fun hback => hdoubled ?_, Bool.eq_false_iff.mpr hempty⟩
        cases cs with
        | nil => exact absurd hlt (Nat.not_lt_zero _)
        | cons first cs =>
          cases hole with
          | zero => cases hback
          | succ hole => exact hback
      have hlength : 1 + hole + 1 = (Segment.hole (cs.take hole)).text.length := by
        rw [Segment.text, List.length_append, List.length_cons, List.length_take,
          Nat.min_eq_left (Nat.le_of_lt hlt), Nat.add_comm 1 hole]
        rfl
      have htext : '`' :: cs = (Segment.hole (cs.take hole)).text ++ cs.drop (hole + 1) := by
        conv => lhs; rw [hcs]
        rw [Segment.text, List.cons_append, List.cons_append, List.append_assoc]
        rfl
      rw [htext, hlength]
      exact ⟨_, hreads.cons hvalid rfl rfl⟩
  | case13 offset chunks lit scopes c cs hnewline hquote hescape hback scopes' hfeed ih =>
    obtain ⟨⟨_, m⟩, hrest, h⟩ := bind_ok h
    obtain ⟨rfl, rfl⟩ := Prod.mk.inj (Except.ok.inj h)
    obtain ⟨segments, hreads⟩ := ih hrest
    have hvalid : (Segment.char c).Valid := ⟨Bool.eq_false_iff.mpr hnewline, hquote, hescape, hback⟩
    refine ⟨_, hreads.cons hvalid rfl ?_⟩
    rw [Segment.decoded, Nesting.feedAll, ← Bidi.feed_eq, hfeed]
    rfl
  | _ => cases h

/-! ### Chunks -/

/-- The text of the literal parts. -/
def literalText (chunks : List StrChunk) : List Char :=
  chunks.flatMap fun chunk =>
    match chunk with
    | .lit text => text.toList
    | .hole _ _ => []

theorem literalText_append (front back : List StrChunk) :
    literalText (front ++ back) = literalText front ++ literalText back := List.flatMap_append

theorem literalText_lit (lit : List Char) : literalText [.lit (.ofList lit)] = lit := by
  show (String.ofList lit).toList ++ [] = lit
  rw [String.toList_ofList, List.append_nil]

theorem literalText_flushLit (lit : List Char) : literalText (flushLit lit) = lit := by
  rw [flushLit]
  by_cases hlit : lit = []
  · rw [if_pos hlit, hlit]
    rfl
  · rw [if_neg hlit, literalText_lit]

theorem literalText_chunksFrom (offset : Nat) (chunks : List StrChunk) (lit : List Char)
    (segments : List Segment) : literalText (chunksFrom offset chunks lit segments) =
      literalText chunks ++ lit ++ segments.flatMap Segment.decoded := by
  induction segments generalizing offset chunks lit with
  | nil =>
    rw [chunksFrom, List.flatMap_nil, List.append_nil]
    by_cases hpending : lit ≠ [] ∨ chunks = []
    · rw [if_pos hpending, literalText_append, literalText_lit]
    · rw [if_neg hpending, not_not.mp (not_or.mp hpending).1, List.append_nil]
  | cons segment segments ih =>
    cases segment with
    | char c =>
      rw [chunksFrom, ih, List.flatMap_cons]
      simp only [List.append_assoc]
      rfl
    | escape e =>
      rw [chunksFrom, ih, List.flatMap_cons]
      simp only [List.append_assoc]
      rfl
    | doubled =>
      rw [chunksFrom, ih, List.flatMap_cons]
      simp only [List.append_assoc]
      rfl
    | hole src =>
      rw [chunksFrom, ih, literalText_append, literalText_append, literalText_flushLit,
        List.flatMap_cons]
      simp only [List.append_assoc]
      rfl

theorem chunksFrom_extends (offset : Nat) (chunks : List StrChunk) (lit : List Char)
    (segments : List Segment) : ∃ more, chunksFrom offset chunks lit segments = chunks ++ more := by
  induction segments generalizing offset chunks lit with
  | nil =>
    rw [chunksFrom]
    by_cases hpending : lit ≠ [] ∨ chunks = []
    · exact ⟨_, if_pos hpending⟩
    · exact ⟨[], by rw [if_neg hpending, List.append_nil]⟩
  | cons segment segments ih =>
    cases segment with
    | char c => exact ih _ _ _
    | escape e => exact ih _ _ _
    | doubled => exact ih _ _ _
    | hole src =>
      obtain ⟨more, hmore⟩ := ih (offset + 1 + extent Char.utf8Size src + 1)
        (chunks ++ flushLit lit ++ [.hole (.ofList src) (offset + 1)]) []
      refine ⟨flushLit lit ++ [.hole (.ofList src) (offset + 1)] ++ more, ?_⟩
      rw [chunksFrom, hmore]
      simp only [List.append_assoc]

/-- The next hole of a literal is the first of its chunks that is a hole. -/
theorem eq_of_next_hole {chunks earlier later more : List StrChunk} {lit : List Char}
    {chunk : StrChunk} {src : String} {start : Nat}
    (h : chunks ++ flushLit lit ++ [chunk] ++ more = earlier ++ .hole src start :: later)
    (hnew : chunks.length ≤ earlier.length)
    (hnext : earlier.length < (chunks ++ flushLit lit ++ [chunk]).length) :
    earlier = chunks ++ flushLit lit ∧ chunk = .hole src start := by
  have hfirst : earlier = (chunks ++ flushLit lit ++ [chunk]).take earlier.length := by
    rw [← List.take_append_of_le_length (Nat.le_of_lt hnext), h,
      List.take_append_of_le_length (Nat.le_refl _), List.take_length]
  have hget : (chunks ++ flushLit lit ++ [chunk])[earlier.length]? = some (.hole src start) := by
    rw [← List.getElem?_append_left hnext, h, List.getElem?_append_right (Nat.le_refl _),
      Nat.sub_self]
    rfl
  rw [List.append_assoc, List.getElem?_append_right hnew] at hget
  have hlast : earlier.length = (chunks ++ flushLit lit).length ∧ chunk = .hole src start := by
    rw [flushLit] at hget hnext ⊢
    by_cases hlit : lit = []
    · rw [if_pos hlit] at hget hnext ⊢
      have hlength : earlier.length = chunks.length := by
        simp only [List.append_nil, List.length_append, List.length_singleton] at hnext
        omega
      rw [hlength, Nat.sub_self] at hget
      exact ⟨by rw [hlength, List.append_nil], Option.some.inj hget⟩
    · rw [if_neg hlit] at hget hnext ⊢
      simp only [List.length_append, List.length_singleton] at hnext ⊢
      obtain hlength | hlength : earlier.length = chunks.length ∨
          earlier.length = chunks.length + 1 := by omega
      · rw [hlength, Nat.sub_self] at hget
        cases hget
      · rw [hlength, Nat.add_sub_cancel_left] at hget
        exact ⟨hlength, Option.some.inj hget⟩
  refine ⟨?_, hlast.2⟩
  rw [hfirst, hlast.1, List.take_append_of_le_length (Nat.le_refl _), List.take_length]

/-- Where the hole of a chunk is among the segments. -/
theorem exists_hole {offset start : Nat} {chunks earlier later : List StrChunk} {lit : List Char}
    {segments : List Segment} {src : String}
    (h : chunksFrom offset chunks lit segments = earlier ++ .hole src start :: later)
    (hnew : chunks.length ≤ earlier.length) :
    ∃ front back, segments = front ++ .hole src.toList :: back ∧
      start = offset + extent Char.utf8Size (front.flatMap Segment.text) + 1 ∧
      literalText earlier = literalText chunks ++ lit ++ front.flatMap Segment.decoded := by
  induction segments generalizing offset chunks lit with
  | nil =>
    exfalso
    have hget : (chunksFrom offset chunks lit [])[earlier.length]? = some (.hole src start) := by
      rw [h, List.getElem?_append_right (Nat.le_refl _), Nat.sub_self]
      rfl
    rw [chunksFrom] at hget
    by_cases hpending : lit ≠ [] ∨ chunks = []
    · rw [if_pos hpending, List.getElem?_append_right hnew] at hget
      obtain ⟨_, heq⟩ := List.getElem?_eq_some_iff.mp hget
      rw [List.getElem_singleton] at heq
      cases heq
    · rw [if_neg hpending, List.getElem?_eq_none hnew] at hget
      cases hget
  | cons segment segments ih =>
    cases segment with
    | char c =>
      obtain ⟨front, back, rfl, hstart, htext⟩ := ih h hnew
      refine ⟨.char c :: front, back, rfl, ?_, ?_⟩
      · rw [hstart, List.flatMap_cons, extent_append, Nat.add_assoc offset]
        rfl
      · rw [htext, List.flatMap_cons]
        simp only [List.append_assoc]
        rfl
    | escape e =>
      obtain ⟨front, back, rfl, hstart, htext⟩ := ih h hnew
      refine ⟨.escape e :: front, back, rfl, ?_, ?_⟩
      · rw [hstart, List.flatMap_cons, extent_append, Nat.add_assoc offset, Nat.add_assoc offset]
        rfl
      · rw [htext, List.flatMap_cons]
        simp only [List.append_assoc]
        rfl
    | doubled =>
      obtain ⟨front, back, rfl, hstart, htext⟩ := ih h hnew
      refine ⟨.doubled :: front, back, rfl, ?_, ?_⟩
      · rw [hstart, List.flatMap_cons, extent_append, Nat.add_assoc offset]
        rfl
      · rw [htext, List.flatMap_cons]
        simp only [List.append_assoc]
        rfl
    | hole inner =>
      by_cases hlater : (chunks ++ flushLit lit ++
          [StrChunk.hole (.ofList inner) (offset + 1)]).length ≤ earlier.length
      · obtain ⟨front, back, rfl, hstart, htext⟩ := ih h hlater
        refine ⟨.hole inner :: front, back, rfl, ?_, ?_⟩
        · rw [hstart, List.flatMap_cons, extent_append, Segment.text, List.cons_append,
            extent_cons, extent_append]
          show _ = offset + (1 + (_ + 1) + _) + 1
          omega
        · rw [htext, literalText_append, literalText_append, literalText_flushLit,
            List.flatMap_cons]
          simp only [List.append_assoc]
          rfl
      · obtain ⟨more, hmore⟩ := chunksFrom_extends (offset + 1 + extent Char.utf8Size inner + 1)
          (chunks ++ flushLit lit ++ [.hole (.ofList inner) (offset + 1)]) [] segments
        rw [chunksFrom, hmore] at h
        obtain ⟨rfl, hchunk⟩ := eq_of_next_hole h hnew (Nat.lt_of_not_le hlater)
        obtain ⟨rfl, rfl⟩ := StrChunk.hole.inj hchunk
        refine ⟨[], segments, ?_, rfl, ?_⟩
        · rw [String.toList_ofList, List.nil_append]
        · rw [literalText_append, literalText_flushLit, List.flatMap_nil, List.append_nil]

theorem mem_chunksFrom (offset : Nat) (chunks : List StrChunk) (lit : List Char)
    {src : List Char} {segments : List Segment} (h : .hole src ∈ segments) :
    ∃ start, .hole (.ofList src) start ∈ chunksFrom offset chunks lit segments := by
  induction segments generalizing offset chunks lit with
  | nil => cases h
  | cons segment segments ih =>
    obtain rfl | hrest := List.mem_cons.mp h
    · obtain ⟨more, hmore⟩ := chunksFrom_extends (offset + 1 + extent Char.utf8Size src + 1)
        (chunks ++ flushLit lit ++ [.hole (.ofList src) (offset + 1)]) [] segments
      refine ⟨offset + 1, ?_⟩
      rw [chunksFrom, hmore]
      exact List.mem_append_left more (List.mem_append_right _ List.mem_cons_self)
    · cases segment with
      | char c => exact ih _ _ _ hrest
      | escape e => exact ih _ _ _ hrest
      | doubled => exact ih _ _ _ hrest
      | hole inner => exact ih _ _ _ hrest

/-! ### Scopes -/

/-- The scopes of the text are those of the literal parts, where holes leave nothing open. -/
theorem feedAll_segments {segments : List Segment} (hvalid : ∀ segment ∈ segments, segment.Valid)
    (hholes : ∀ src, .hole src ∈ segments → feedAll bracket [] src = .ok [])
    (scopes : ScopeStack) :
    feedAll bracket scopes (segments.flatMap Segment.text) =
      feedAll bracket scopes (segments.flatMap Segment.decoded) := by
  induction segments generalizing scopes with
  | nil => rfl
  | cons segment segments ih =>
    obtain ⟨hsegment, hrest⟩ := List.forall_mem_cons.mp hvalid
    have hnext := ih hrest fun src hsrc => hholes src (List.mem_cons_of_mem _ hsrc)
    have hsame : feedAll bracket scopes segment.text = feedAll bracket scopes segment.decoded := by
      cases segment with
      | char c => rfl
      | escape e =>
        obtain ⟨decoded, hdecoded⟩ := Option.isSome_iff_exists.mp hsegment.2
        have htext : ∀ c ∈ (Segment.escape e).text, bracket c = none := by
          have he : bracket e = none := by
            revert hdecoded
            fun_cases escaped e with
            | case8 => nofun
            | _ => exact fun _ => rfl
          exact List.forall_mem_cons.mpr ⟨rfl, List.forall_mem_singleton.mpr he⟩
        have hplain : ∀ c ∈ (Segment.escape e).decoded, bracket c = none := by
          rw [Segment.decoded, hdecoded]
          exact List.forall_mem_singleton.mpr (bracket_escaped hdecoded)
        rw [Nesting.feedAll_unmarked htext, Nesting.feedAll_unmarked hplain]
      | doubled => rfl
      | hole src =>
        have hsrc := Nesting.feedAll_above (hholes src List.mem_cons_self) scopes
        rw [List.nil_append] at hsrc
        have hopen : feedAll bracket scopes ('`' :: src) = .ok scopes := hsrc
        rw [Segment.text, Nesting.feedAll_append_ok hopen]
        rfl
    rw [List.flatMap_cons, List.flatMap_cons, Nesting.feedAll_append, Nesting.feedAll_append, hsame]
    exact congrArg _ (funext hnext)

end Quilon.Lexer
