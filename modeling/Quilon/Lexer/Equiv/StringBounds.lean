import Quilon.Lexer.Equiv.Bytes
import Quilon.Lexer.Equiv.TrojanSource

/-!
# Where string literals end

A literal that lexes ends where the scanner skips to (`scanStringEnd_of_lexString`), and the
literals of a hole's source end where the scan of the hole skipped to (`mem_holeSkips`): what the
scanners find does not depend on the text behind it (`scanHoleEnd_append`).
-/

namespace Quilon.Lexer

open Bidi (ScopeStack)

/-! ### A literal that lexes -/

theorem scanStringEnd_of_lexString {offset n : Nat} {chunks result : List StrChunk}
    {lit cs : List Char} {scopes : ScopeStack}
    (h : lexStringFrom offset chunks lit scopes cs = .ok (result, n)) :
    scanStringEnd cs = .ok n := by
  fun_induction lexStringFrom offset chunks lit scopes cs generalizing result n with
  | case4 =>
    obtain ⟨-, rfl⟩ := Prod.mk.inj (Except.ok.inj h)
    rw [scanStringEnd, if_neg (by decide), if_neg (by decide), if_pos rfl]
  | case5 =>
    obtain ⟨-, rfl⟩ := Prod.mk.inj (Except.ok.inj h)
    rw [scanStringEnd, if_neg (by decide), if_neg (by decide), if_pos rfl]
  | case9 offset chunks lit scopes e cs hnewline decoded hescaped _ _ ih =>
    obtain ⟨⟨_, m⟩, hrest, h⟩ := bind_ok h
    obtain ⟨-, rfl⟩ := Prod.mk.inj (Except.ok.inj h)
    rw [scanStringEnd, if_neg (by decide), if_pos rfl]
    show (if isNewline e = true then _ else (scanStringEnd cs >>= _)) = _
    rw [if_neg hnewline, ih hrest]
    rfl
  | case10 offset chunks lit scopes cs hdoubled _ _ _ ih =>
    obtain ⟨⟨_, m⟩, hrest, h⟩ := bind_ok h
    obtain ⟨-, rfl⟩ := Prod.mk.inj (Except.ok.inj h)
    rw [scanStringEnd, if_neg (by decide), if_neg (by decide), if_neg (by decide), if_pos rfl,
      if_pos hdoubled, ih hrest]
    rfl
  | case11 offset chunks lit scopes cs hdoubled _ _ _ ih =>
    obtain ⟨hole, hhole, h⟩ := bind_ok h
    dsimp only at h
    by_cases hempty : (cs.take hole).all isWhiteSpace = true
    · rw [if_pos hempty] at h
      cases h
    · rw [if_neg hempty] at h
      obtain ⟨⟨_, m⟩, hrest, h⟩ := bind_ok h
      obtain ⟨-, rfl⟩ := Prod.mk.inj (Except.ok.inj h)
      rw [scanStringEnd, if_neg (by decide), if_neg (by decide), if_neg (by decide), if_pos rfl,
        if_neg hdoubled, hhole]
      show (scanStringEnd (cs.drop (hole + 1)) >>= _) = _
      rw [ih hole hrest]
      rfl
  | case13 offset chunks lit scopes c cs hnewline hquote hescape hback scopes' hfeed ih =>
    obtain ⟨⟨_, m⟩, hrest, h⟩ := bind_ok h
    obtain ⟨-, rfl⟩ := Prod.mk.inj (Except.ok.inj h)
    rw [scanStringEnd, if_neg hnewline, if_neg hescape, if_neg hquote, if_neg hback, ih hrest]
    rfl
  | _ => cases h

/-- The source of a hole, where the scanner finds it. -/
def HoleAt (offset : Nat) (cs : List Char) (src : List Char) (start : Nat) : Prop :=
  ∃ front more, cs = front ++ (src ++ '`' :: more) ∧
    start = offset + extent Char.utf8Size front ∧
    scanHoleEnd (src ++ '`' :: more) = .ok src.length

theorem HoleAt.behind {offset start : Nat} {rest src : List Char} (front : List Char)
    (h : HoleAt (offset + extent Char.utf8Size front) rest src start) :
    HoleAt offset (front ++ rest) src start := by
  obtain ⟨front', more, rfl, rfl, hscan⟩ := h
  refine ⟨front ++ front', more, ?_, ?_, hscan⟩
  · rw [List.append_assoc]
  · rw [extent_append, Nat.add_assoc]

theorem holeAt_of_lexString {offset n start : Nat} {chunks result : List StrChunk}
    {lit cs : List Char} {scopes : ScopeStack} {src : String}
    (h : lexStringFrom offset chunks lit scopes cs = .ok (result, n))
    (hmem : .hole src start ∈ result) (hnew : .hole src start ∉ chunks) :
    HoleAt offset cs src.toList start := by
  fun_induction lexStringFrom offset chunks lit scopes cs generalizing result n with
  | case4 =>
    obtain ⟨rfl, -⟩ := Prod.mk.inj (Except.ok.inj h)
    obtain hmem | hmem := List.mem_append.mp hmem
    · exact absurd hmem hnew
    · cases List.mem_singleton.mp hmem
  | case5 =>
    obtain ⟨rfl, -⟩ := Prod.mk.inj (Except.ok.inj h)
    exact absurd hmem hnew
  | case9 offset chunks lit scopes e cs hnewline decoded hescaped _ _ ih =>
    obtain ⟨⟨_, m⟩, hrest, h⟩ := bind_ok h
    obtain ⟨rfl, -⟩ := Prod.mk.inj (Except.ok.inj h)
    have hat := ih hrest hmem hnew
    rw [Nat.add_assoc] at hat
    exact HoleAt.behind ['\\', e] hat
  | case10 offset chunks lit scopes cs hdoubled _ _ _ ih =>
    obtain ⟨⟨_, m⟩, hrest, h⟩ := bind_ok h
    obtain ⟨rfl, -⟩ := Prod.mk.inj (Except.ok.inj h)
    obtain ⟨cs, rfl⟩ := List.head?_eq_some_iff.mp hdoubled
    exact HoleAt.behind ['`', '`'] (ih hrest hmem hnew)
  | case11 offset chunks lit scopes cs hdoubled _ _ _ ih =>
    obtain ⟨hole, hhole, h⟩ := bind_ok h
    dsimp only at h
    by_cases hempty : (cs.take hole).all isWhiteSpace = true
    · rw [if_pos hempty] at h
      cases h
    rw [if_neg hempty] at h
    obtain ⟨⟨_, m⟩, hrest, h⟩ := bind_ok h
    obtain ⟨rfl, -⟩ := Prod.mk.inj (Except.ok.inj h)
    have hcs := eq_of_scanHoleEnd hhole
    obtain ⟨hlt, -⟩ := scanHoleEnd_spec hhole
    by_cases hthis : StrChunk.hole src start = .hole (.ofList (cs.take hole)) (offset + 1)
    · obtain ⟨rfl, rfl⟩ := StrChunk.hole.inj hthis
      rw [String.toList_ofList]
      refine ⟨['`'], cs.drop (hole + 1), congrArg ('`' :: ·) hcs, rfl, ?_⟩
      rw [← hcs, hhole, List.length_take, Nat.min_eq_left (Nat.le_of_lt hlt)]
    · have hlater : StrChunk.hole src start ∉
          chunks ++ flushLit lit ++ [.hole (.ofList (cs.take hole)) (offset + 1)] := by
        intro hold
        obtain hold | hold := List.mem_append.mp hold
        · obtain hold | hold := List.mem_append.mp hold
          · exact hnew hold
          · rw [flushLit] at hold
            split at hold
            case isTrue => cases hold
            case isFalse => cases List.mem_singleton.mp hold
        · exact hthis (List.mem_singleton.mp hold)
      have hat := ih hole hrest hmem hlater
      have hsplit : '`' :: cs = ('`' :: cs.take hole ++ ['`']) ++ cs.drop (hole + 1) := by
        conv => lhs; rw [hcs]
        rw [List.append_assoc]
        rfl
      have hoffset : offset + 1 + extent Char.utf8Size (cs.take hole) + 1 =
          offset + extent Char.utf8Size ('`' :: cs.take hole ++ ['`']) := by
        have hsize : '`'.utf8Size = 1 := rfl
        rw [extent_append, extent_cons, extent_cons, extent_nil, hsize]
        omega
      rw [hoffset] at hat
      rw [hsplit]
      exact hat.behind _
  | case13 offset chunks lit scopes c cs hnewline hquote hescape hback scopes' hfeed ih =>
    obtain ⟨⟨_, m⟩, hrest, h⟩ := bind_ok h
    obtain ⟨rfl, -⟩ := Prod.mk.inj (Except.ok.inj h)
    exact HoleAt.behind [c] (ih hrest hmem hnew)
  | _ => cases h

/-! ### The text behind -/

mutual

theorem scanHoleEnd_append {cs : List Char} {n : Nat} (h : scanHoleEnd cs = .ok n)
    (behind : List Char) : scanHoleEnd (cs ++ behind) = .ok n := by
  cases cs with
  | nil =>
    rw [scanHoleEnd] at h
    cases h
  | cons c cs =>
    rw [scanHoleEnd] at h
    rw [List.cons_append, scanHoleEnd]
    by_cases hnewline : isNewline c = true
    · rw [if_pos hnewline] at h
      cases h
    rw [if_neg hnewline] at h ⊢
    by_cases hback : c = '`'
    · rw [if_pos hback] at h ⊢
      exact h
    rw [if_neg hback] at h ⊢
    by_cases hquote : c = '"'
    · rw [if_pos hquote] at h ⊢
      obtain ⟨skipped, hskipped, h⟩ := bind_ok h
      obtain ⟨rest, hrest, h⟩ := bind_ok h
      have hle := (scanStringEnd_le hskipped).2
      rw [scanStringEnd_append hskipped behind]
      show (scanHoleEnd ((cs ++ behind).drop skipped) >>= _) = _
      rw [List.drop_append_of_le_length hle, scanHoleEnd_append hrest behind]
      exact h
    · rw [if_neg hquote] at h ⊢
      obtain ⟨rest, hrest, h⟩ := bind_ok h
      rw [scanHoleEnd_append hrest behind]
      exact h
termination_by cs.length

theorem scanStringEnd_append {cs : List Char} {n : Nat} (h : scanStringEnd cs = .ok n)
    (behind : List Char) : scanStringEnd (cs ++ behind) = .ok n := by
  cases cs with
  | nil =>
    rw [scanStringEnd] at h
    cases h
  | cons c cs =>
    rw [scanStringEnd] at h
    rw [List.cons_append, scanStringEnd]
    by_cases hnewline : isNewline c = true
    · rw [if_pos hnewline] at h
      cases h
    rw [if_neg hnewline] at h ⊢
    by_cases hescape : c = '\\'
    · rw [if_pos hescape] at h ⊢
      cases cs with
      | nil =>
        rw [if_neg (by decide), List.drop_nil, scanStringEnd] at h
        cases h
      | cons e cs =>
        have hhead : (e :: cs ++ behind).head?.any isNewline = (e :: cs).head?.any isNewline := rfl
        rw [hhead]
        by_cases hbroken : (e :: cs).head?.any isNewline = true
        · rw [if_pos hbroken] at h
          cases h
        rw [if_neg hbroken] at h ⊢
        obtain ⟨rest, hrest, h⟩ := bind_ok h
        rw [List.drop_succ_cons, List.drop_zero] at hrest
        show (scanStringEnd (cs ++ behind) >>= _) = _
        rw [scanStringEnd_append hrest behind]
        exact h
    rw [if_neg hescape] at h ⊢
    by_cases hquote : c = '"'
    · rw [if_pos hquote] at h ⊢
      exact h
    rw [if_neg hquote] at h ⊢
    by_cases hback : c = '`'
    · rw [if_pos hback] at h ⊢
      cases cs with
      | nil =>
        rw [if_neg nofun, scanHoleEnd] at h
        cases h
      | cons d cs =>
        have hhead : (d :: cs ++ behind).head? = (d :: cs).head? := rfl
        rw [hhead]
        by_cases hdoubled : (d :: cs).head? = some '`'
        · rw [if_pos hdoubled] at h ⊢
          obtain ⟨rest, hrest, h⟩ := bind_ok h
          rw [List.drop_succ_cons, List.drop_zero] at hrest
          show (scanStringEnd (cs ++ behind) >>= _) = _
          rw [scanStringEnd_append hrest behind]
          exact h
        · rw [if_neg hdoubled] at h ⊢
          obtain ⟨hole, hhole, h⟩ := bind_ok h
          obtain ⟨rest, hrest, h⟩ := bind_ok h
          obtain ⟨hlt, -⟩ := scanHoleEnd_spec hhole
          rw [scanHoleEnd_append hhole behind]
          show (scanStringEnd ((d :: cs ++ behind).drop (hole + 1)) >>= _) = _
          rw [List.drop_append_of_le_length hlt, scanStringEnd_append hrest behind]
          exact h
    · rw [if_neg hback] at h ⊢
      obtain ⟨rest, hrest, h⟩ := bind_ok h
      rw [scanStringEnd_append hrest behind]
      exact h
termination_by cs.length

end

/-! ### Newlines -/

theorem not_mem_of_cons {c : Char} {cs : List Char} {n : Nat} (hc : isNewline c = false)
    (h : '\n' ∉ cs.take n) : '\n' ∉ (c :: cs).take (n + 1) := by
  rw [List.take_succ_cons]
  refine fun hmem => ?_
  obtain rfl | hmem := List.mem_cons.mp hmem
  · cases hc
  · exact h hmem

theorem not_mem_take_add {cs : List Char} {m n : Nat} (hfront : '\n' ∉ cs.take m)
    (hback : '\n' ∉ (cs.drop m).take n) : '\n' ∉ cs.take (m + n) := by
  rw [List.take_add]
  exact fun hmem => (List.mem_append.mp hmem).elim hfront hback

mutual

/-- There is no newline in a hole. -/
theorem newline_not_mem_hole {cs : List Char} {n : Nat} (h : scanHoleEnd cs = .ok n) :
    '\n' ∉ cs.take n := by
  cases cs with
  | nil =>
    rw [scanHoleEnd] at h
    cases h
  | cons c cs =>
    rw [scanHoleEnd] at h
    by_cases hnewline : isNewline c = true
    · rw [if_pos hnewline] at h
      cases h
    rw [if_neg hnewline] at h
    have hc : isNewline c = false := Bool.eq_false_iff.mpr hnewline
    by_cases hback : c = '`'
    · rw [if_pos hback] at h
      obtain rfl := Except.ok.inj h
      exact List.not_mem_nil
    rw [if_neg hback] at h
    by_cases hquote : c = '"'
    · rw [if_pos hquote] at h
      obtain ⟨skipped, hskipped, h⟩ := bind_ok h
      obtain ⟨rest, hrest, h⟩ := bind_ok h
      obtain rfl := Except.ok.inj h
      rw [show 1 + skipped + rest = skipped + rest + 1 by omega]
      exact not_mem_of_cons hc
        (not_mem_take_add (newline_not_mem_string hskipped) (newline_not_mem_hole hrest))
    · rw [if_neg hquote] at h
      obtain ⟨rest, hrest, h⟩ := bind_ok h
      obtain rfl := Except.ok.inj h
      rw [Nat.add_comm 1 rest]
      exact not_mem_of_cons hc (newline_not_mem_hole hrest)
termination_by cs.length

theorem newline_not_mem_string {cs : List Char} {n : Nat} (h : scanStringEnd cs = .ok n) :
    '\n' ∉ cs.take n := by
  cases cs with
  | nil =>
    rw [scanStringEnd] at h
    cases h
  | cons c cs =>
    rw [scanStringEnd] at h
    by_cases hnewline : isNewline c = true
    · rw [if_pos hnewline] at h
      cases h
    rw [if_neg hnewline] at h
    have hc : isNewline c = false := Bool.eq_false_iff.mpr hnewline
    by_cases hescape : c = '\\'
    · rw [if_pos hescape] at h
      by_cases hbroken : cs.head?.any isNewline = true
      · rw [if_pos hbroken] at h
        cases h
      rw [if_neg hbroken] at h
      obtain ⟨rest, hrest, h⟩ := bind_ok h
      obtain rfl := Except.ok.inj h
      cases cs with
      | nil =>
        rw [List.drop_nil, scanStringEnd] at hrest
        cases hrest
      | cons e cs =>
        rw [List.drop_succ_cons, List.drop_zero] at hrest
        have he : isNewline e = false := Bool.eq_false_iff.mpr hbroken
        rw [show 2 + rest = rest + 1 + 1 by omega]
        exact not_mem_of_cons hc (not_mem_of_cons he (newline_not_mem_string hrest))
    rw [if_neg hescape] at h
    by_cases hquote : c = '"'
    · rw [if_pos hquote] at h
      obtain rfl := Except.ok.inj h
      exact not_mem_of_cons (n := 0) hc List.not_mem_nil
    rw [if_neg hquote] at h
    by_cases hback : c = '`'
    · rw [if_pos hback] at h
      by_cases hdoubled : cs.head? = some '`'
      · rw [if_pos hdoubled] at h
        obtain ⟨cs, rfl⟩ := List.head?_eq_some_iff.mp hdoubled
        obtain ⟨rest, hrest, h⟩ := bind_ok h
        obtain rfl := Except.ok.inj h
        rw [List.drop_succ_cons, List.drop_zero] at hrest
        rw [show 2 + rest = rest + 1 + 1 by omega]
        exact not_mem_of_cons hc (not_mem_of_cons rfl (newline_not_mem_string hrest))
      · rw [if_neg hdoubled] at h
        obtain ⟨hole, hhole, h⟩ := bind_ok h
        obtain ⟨rest, hrest, h⟩ := bind_ok h
        obtain rfl := Except.ok.inj h
        obtain ⟨hlt, hget⟩ := scanHoleEnd_spec hhole
        rw [List.getElem?_eq_getElem hlt, Option.some.injEq] at hget
        have hfront : '\n' ∉ cs.take (hole + 1) := by
          rw [List.take_succ_eq_append_getElem hlt, hget]
          refine fun hmem => ?_
          obtain hmem | hmem := List.mem_append.mp hmem
          · exact newline_not_mem_hole hhole hmem
          · exact absurd (List.mem_singleton.mp hmem) (by decide)
        rw [show 1 + hole + 1 + rest = hole + 1 + rest + 1 by omega]
        exact not_mem_of_cons hc (not_mem_take_add hfront (newline_not_mem_string hrest))
    · rw [if_neg hback] at h
      obtain ⟨rest, hrest, h⟩ := bind_ok h
      obtain rfl := Except.ok.inj h
      rw [Nat.add_comm 1 rest]
      exact not_mem_of_cons hc (newline_not_mem_string hrest)
termination_by cs.length

end

/-! ### The source of a hole -/

/-- The lexemes of a text, up to its end or the first error. -/
def lexemesUntilError (xid : Xid) (offset : Nat) : List Char → List Lexeme
  | [] => []
  | c :: cs =>
    match nextLexeme xid offset c cs with
    | .error _ => []
    | .ok (kind, n) =>
      ⟨kind, c :: cs.take n⟩ ::
        lexemesUntilError xid (offset + extent Char.utf8Size (c :: cs.take n)) (cs.drop n)
termination_by cs => cs.length

theorem lexemesUntilError_eq {xid : Xid} {offset : Nat} {cs : List Char} {lexemes : List Lexeme}
    (h : lexemesFrom xid offset cs = .ok lexemes) : lexemesUntilError xid offset cs = lexemes := by
  fun_induction lexemesFrom xid offset cs generalizing lexemes with
  | case1 offset =>
    obtain rfl := Except.ok.inj h
    rw [lexemesUntilError]
  | case2 offset c cs ih =>
    obtain ⟨⟨kind, n⟩, hnext, h⟩ := bind_ok h
    obtain ⟨rest, hrest, h⟩ := bind_ok h
    obtain rfl := Except.ok.inj h
    rw [lexemesUntilError, hnext]
    dsimp only
    rw [ih n hrest]

/-- Code has no quote in it. -/
theorem quote_not_mem_of_code {xid : Xid} {text : List Char} (h : Code xid text) : '"' ∉ text := by
  intro hquote
  have hcode := h '"' hquote
  rw [isCode, xid.start_ascii '"' (by decide), xid.continue_ascii '"' (by decide)] at hcode
  exact absurd hcode (by decide)

/-- What the scan of a hole steps over before the next quote. -/
theorem scanHoleEnd_code {text rest : List Char} {n : Nat} (hquote : '"' ∉ text)
    (h : scanHoleEnd (text ++ rest) = .ok (text.length + n)) :
    scanHoleEnd rest = .ok n ∧ ∀ c ∈ text, isNewline c = false ∧ c ≠ '`' := by
  induction text with
  | nil =>
    rw [List.nil_append, List.length_nil, Nat.zero_add] at h
    exact ⟨h, nofun⟩
  | cons c text ih =>
    rw [List.cons_append, scanHoleEnd] at h
    obtain ⟨hc, hquote⟩ := not_or.mp (mt List.mem_cons.mpr hquote)
    by_cases hnewline : isNewline c = true
    · rw [if_pos hnewline] at h
      cases h
    rw [if_neg hnewline] at h
    by_cases hback : c = '`'
    · rw [if_pos hback, List.length_cons] at h
      have hzero := Except.ok.inj h
      omega
    rw [if_neg hback, if_neg (Ne.symm hc)] at h
    obtain ⟨m, hm, h⟩ := bind_ok h
    have hlength : m = text.length + n := by
      have hsum : 1 + m = text.length + 1 + n := Except.ok.inj h
      omega
    rw [hlength] at hm
    obtain ⟨hrest, htext⟩ := ih hquote hm
    exact ⟨hrest, List.forall_mem_cons.mpr ⟨⟨Bool.eq_false_iff.mpr hnewline, hback⟩, htext⟩⟩

end Quilon.Lexer

namespace Quilon.Lexer.Bytes

open Utf8 (encode encode_cons encode_append length_encodeChar)

/-- The string literals that `scanHoleEnd` skips, where each begins and ends; `i` is the index of
the first byte. -/
def holeSkips (i : Nat) : List UInt8 → List (Nat × Nat)
  | [] => []
  | b :: bytes =>
    if isNewline b || b = BACKTICK then []
    else if b = QUOTE then
      match scanStringEnd bytes with
      | .error _ => []
      | .ok n => (i, i + 1 + n) :: holeSkips (i + 1 + n) (bytes.drop n)
    else holeSkips (i + 1) bytes
termination_by bytes => bytes.length

theorem holeSkips_plain {bytes rest : List UInt8} {i : Nat}
    (h : ∀ b ∈ bytes, Plain b ∨ b = BACKSLASH) :
    holeSkips i (bytes ++ rest) = holeSkips (i + bytes.length) rest := by
  induction bytes generalizing i with
  | nil => rfl
  | cons b bytes ih =>
    obtain ⟨hb, hbytes⟩ := List.forall_mem_cons.mp h
    obtain ⟨hnewline, hback, hquote⟩ := step_of_plain hb
    have hstep : ¬(isNewline b || decide (b = BACKTICK)) = true := by
      rw [hnewline, decide_eq_false hback]
      decide
    rw [List.cons_append, holeSkips, if_neg hstep, if_neg hquote, ih hbytes, List.length_cons,
      Nat.add_assoc, Nat.add_comm 1]

theorem holeSkips_code {text rest : List Char} {i : Nat} (hquote : '"' ∉ text)
    (h : ∀ c ∈ text, Lexer.isNewline c = false ∧ c ≠ '`') :
    holeSkips i (encode (text ++ rest)) =
      holeSkips (i + extent Char.utf8Size text) (encode rest) := by
  have hplain : ∀ b ∈ encode text, Plain b ∨ b = BACKSLASH := by
    intro b hb
    obtain ⟨c, hc, hb⟩ := List.mem_flatMap.mp hb
    obtain ⟨hnewline, hback⟩ := h c hc
    have hne : c ≠ '"' := fun heq => hquote (heq ▸ hc)
    exact plain_or_backslash hnewline hne hback b hb
  rw [encode_append, holeSkips_plain hplain, length_encode]

/-- The scan of a hole skips a literal that lexes. -/
theorem holeSkips_quote {cs behind : List Char} {n i : Nat} (h : Lexer.scanStringEnd cs = .ok n) :
    holeSkips i (encode ('"' :: (cs ++ behind))) =
      (i, i + extent Char.utf8Size ('"' :: cs.take n)) ::
        holeSkips (i + extent Char.utf8Size ('"' :: cs.take n)) (encode (cs.drop n ++ behind)) := by
  have hle := (scanStringEnd_le h).2
  have hwidth : width (cs ++ behind) n = extent Char.utf8Size (cs.take n) := by
    rw [width, List.take_append_of_le_length hle]
  have hbytes : scanStringEnd (encode (cs ++ behind)) =
      .ok (extent Char.utf8Size (cs.take n)) := by
    rw [scanStringEnd_encode, scanStringEnd_append h behind, ← hwidth]
    rfl
  have hextent : i + extent Char.utf8Size ('"' :: cs.take n) =
      i + 1 + extent Char.utf8Size (cs.take n) := by
    rw [extent_cons, Nat.add_assoc]
    rfl
  show holeSkips i (QUOTE :: encode (cs ++ behind)) = _
  rw [holeSkips, if_neg (by decide), if_pos rfl, hbytes]
  dsimp only
  rw [hextent, ← hwidth, drop_width, List.drop_append_of_le_length hle]

/-- The literals that are found in the source of a hole are those that its scan skipped. -/
theorem mem_holeSkips {xid : Xid} {offset i : Nat} {src behind : List Char}
    {front back : List Lexeme} {parts : List StrChunk} {text : List Char}
    (hscan : Lexer.scanHoleEnd (src ++ behind) = .ok src.length)
    (hlex : lexemesUntilError xid offset src = front ++ ⟨.token (.string parts), text⟩ :: back) :
    (i + extent Char.utf8Size (lexemesText front),
        i + extent Char.utf8Size (lexemesText front) + extent Char.utf8Size text) ∈
      holeSkips i (encode (src ++ behind)) := by
  fun_induction lexemesUntilError xid offset src generalizing i front with
  | case1 offset => exact absurd hlex.symm (by simp)
  | case2 offset c cs e hnext => exact absurd hlex.symm (by simp)
  | case3 offset c cs kind n hnext ih =>
    have hshape := shaped_of_nextLexeme hnext
    have hsplit : c :: cs = c :: cs.take n ++ cs.drop n := by
      rw [List.cons_append, List.take_append_drop]
    cases front with
    | nil =>
      obtain ⟨hfirst, -⟩ := List.cons.inj hlex
      obtain ⟨rfl, rfl⟩ := Lexeme.mk.inj hfirst
      obtain ⟨rfl, hstring⟩ := hshape
      have hend := scanStringEnd_of_lexString hstring
      rw [List.cons_append, holeSkips_quote hend]
      exact List.mem_cons_self
    | cons first front =>
      obtain ⟨rfl, hlater⟩ := List.cons.inj hlex
      have hplace : i + extent Char.utf8Size (lexemesText (⟨kind, c :: cs.take n⟩ :: front)) =
          i + extent Char.utf8Size (c :: cs.take n) + extent Char.utf8Size (lexemesText front) := by
        rw [lexemesText, List.flatMap_cons, extent_append, Nat.add_assoc]
        rfl
      rw [hplace]
      -- Code is stepped over, a literal is skipped, and behind a comment nothing is left.
      have hcode : Code xid (c :: cs.take n) → (i + extent Char.utf8Size (c :: cs.take n) +
            extent Char.utf8Size (lexemesText front),
          i + extent Char.utf8Size (c :: cs.take n) + extent Char.utf8Size (lexemesText front) +
            extent Char.utf8Size text) ∈ holeSkips i (encode (c :: cs ++ behind)) := by
        intro hcode
        have hquote := quote_not_mem_of_code hcode
        have hlength : (c :: cs).length = (c :: cs.take n).length + (cs.drop n).length := by
          rw [← List.length_append, ← hsplit]
        rw [hlength, hsplit, List.append_assoc] at hscan
        obtain ⟨hrest, htext⟩ := scanHoleEnd_code hquote hscan
        rw [hsplit, List.append_assoc, holeSkips_code hquote htext]
        exact ih hrest hlater
      cases kind with
      | blank => exact hcode hshape
      | comment =>
        exfalso
        have hnewline := newline_not_mem_hole hscan
        rw [List.take_left] at hnewline
        have hall : cs.takeWhile (· ≠ '\n') = cs := by
          refine List.takeWhile_eq_self_iff.mpr fun d hd => decide_eq_true ?_
          rintro rfl
          exact hnewline (List.mem_cons_of_mem _ hd)
        have hdrop : cs.drop n = [] := by
          have htake := hshape.1
          rw [hall] at htake
          have happend := List.take_append_drop n cs
          rw [htake] at happend
          exact List.append_right_eq_self.mp happend
        rw [hdrop, lexemesUntilError] at hlater
        exact absurd hlater.symm (by simp)
      | token kind =>
        cases kind with
        | string chunks =>
          obtain ⟨rfl, hstring⟩ := hshape
          have hend := scanStringEnd_of_lexString hstring
          have hle := (scanStringEnd_le hend).2
          have hrest : Lexer.scanHoleEnd (cs.drop n ++ behind) = .ok (cs.drop n).length := by
            rw [List.cons_append, Lexer.scanHoleEnd, if_neg (by decide), if_neg (by decide),
              if_pos rfl, scanStringEnd_append hend behind] at hscan
            obtain ⟨_, hskipped, hscan⟩ := bind_ok hscan
            obtain rfl := Except.ok.inj hskipped
            obtain ⟨m, hm, hscan⟩ := bind_ok hscan
            have hlength : m = (cs.drop n).length := by
              have hsum : 1 + n + m = cs.length + 1 := Except.ok.inj hscan
              rw [List.length_drop]
              omega
            rw [← hlength, ← List.drop_append_of_le_length hle]
            exact hm
          rw [List.cons_append, holeSkips_quote hend]
          exact List.mem_cons_of_mem _ (ih hrest hlater)
        | _ => exact hcode hshape

/-- Where a literal that lexes in the `i` bytes of `rem` ends, what it is made of, and where its
holes and the literals in them lie. -/
structure BoundsAgree (xid : Xid) (before rem : List Char) (chunks : List StrChunk) (i : Nat) :
    Prop where
  skipped : scanStringEnd (encode rem) = .ok i
  partitioned : ∃ segments : List Segment, (∀ segment ∈ segments, segment.Valid) ∧
    (encode rem).take i = encode (segments.flatMap Segment.text ++ ['"']) ∧
    chunks = chunksFrom (encode (before ++ ['"'])).length [] [] segments
  holes : ∀ src start, .hole src start ∈ chunks →
    slice? (encode (before ++ '"' :: rem)) start (start + (encode src.toList).length) =
      some src.toList
  relexed : ∀ src start, .hole src start ∈ chunks → ∀ front parts text back,
    lexemesUntilError xid 0 src.toList = front ++ ⟨.token (.string parts), text⟩ :: back →
      ((encode (lexemesText front)).length,
          (encode (lexemesText front)).length + (encode text).length) ∈
        holeSkips 0 ((encode (before ++ '"' :: rem)).drop start)

theorem lexString_encode (base : Nat) (rem : List Char) :
    lexString base (encode rem) = some (atBytes rem (Lexer.lexString base rem)) :=
  lexStringFrom_encode base [] [] [] rem

theorem slice?_encode (front src more : List Char) :
    slice? (encode (front ++ (src ++ more))) (encode front).length
      ((encode front).length + (encode src).length) = some src := by
  have htake : (encode (front ++ (src ++ more))).take (encode front).length = encode front := by
    rw [encode_append, List.take_left]
  have hmiddle : ((encode (front ++ (src ++ more))).take
      ((encode front).length + (encode src).length)).drop (encode front).length = encode src := by
    rw [← List.append_assoc, encode_append, encode_append, ← List.length_append, List.take_left,
      List.drop_left]
  have hle : (encode front).length + (encode src).length ≤
      (encode (front ++ (src ++ more))).length := by
    rw [encode_append, encode_append, List.length_append, List.length_append]
    omega
  rw [slice?, htake, hmiddle, Utf8.decode?_encode, Utf8.decode?_encode]
  exact if_pos ⟨Nat.le_add_right _ _, hle, rfl⟩

/-- The bounds of string literals agree: the lexer's, the scanner's and those of the literals inside
holes, and no slice is taken inside a character. -/
theorem string_bounds_agree (xid : Xid) (before rem : List Char) :
    (lexString (encode (before ++ ['"'])).length (encode rem)).isSome ∧
      ∀ chunks i, lexString (encode (before ++ ['"'])).length (encode rem) =
        some (.ok (chunks, i)) → BoundsAgree xid before rem chunks i := by
  rw [lexString_encode]
  refine ⟨rfl, fun chunks i hsome => ?_⟩
  have h := Option.some.inj hsome
  cases hlex : Lexer.lexString (encode (before ++ ['"'])).length rem with
  | error e =>
    rw [hlex] at h
    cases h
  | ok found =>
    obtain ⟨found, n⟩ := found
    rw [hlex] at h
    obtain ⟨rfl, rfl⟩ := Prod.mk.inj (Except.ok.inj h)
    have hscan := scanStringEnd_of_lexString hlex
    have hsource : ∀ src start, .hole src start ∈ found → ∃ front more,
        before ++ '"' :: rem = front ++ (src.toList ++ '`' :: more) ∧
          start = (encode front).length ∧
          Lexer.scanHoleEnd (src.toList ++ '`' :: more) = .ok src.toList.length := by
      intro src start hsrc
      obtain ⟨front, more, rfl, rfl, hhole⟩ := holeAt_of_lexString hlex hsrc List.not_mem_nil
      refine ⟨before ++ ['"'] ++ front, more, ?_, ?_, hhole⟩
      · rw [List.append_assoc, List.append_assoc, List.singleton_append]
      · rw [length_encode, length_encode, ← extent_append]
    constructor
    case skipped =>
      rw [scanStringEnd_encode, hscan]
      rfl
    case partitioned =>
      obtain ⟨segments, hreads⟩ := exists_segments hlex
      refine ⟨segments, hreads.valid, ?_, hreads.chunks⟩
      rw [take_width, hreads.take]
    case holes =>
      intro src start hsrc
      obtain ⟨front, more, hsplit, rfl, -⟩ := hsource src start hsrc
      rw [hsplit]
      exact slice?_encode front src.toList ('`' :: more)
    case relexed =>
      intro src start hsrc front parts text back hfound
      obtain ⟨outer, more, hsplit, rfl, hhole⟩ := hsource src start hsrc
      have hmem := mem_holeSkips (i := 0) hhole hfound
      rw [hsplit, encode_append, List.drop_left, length_encode, length_encode]
      rw [Nat.zero_add] at hmem
      exact hmem

/-- "`"b"`" -/
theorem string_bounds_agree_nested :
    BoundsAgree asciiXid [] ['`', '"', 'b', '"', '`', '"'] [.hole "\"b\"" 2] 6 := by
  have hstring : Lexer.scanStringEnd ['b', '"', '`', '"'] = .ok 2 := by
    rw [Lexer.scanStringEnd, if_neg (by decide), if_neg (by decide), if_neg (by decide),
      if_neg (by decide), Lexer.scanStringEnd, if_neg (by decide), if_neg (by decide), if_pos rfl]
    rfl
  have hhole : Lexer.scanHoleEnd ['"', 'b', '"', '`', '"'] = .ok 3 := by
    rw [Lexer.scanHoleEnd, if_neg (by decide), if_neg (by decide), if_pos rfl, hstring]
    show (Lexer.scanHoleEnd ['`', '"'] >>= _) = _
    rw [Lexer.scanHoleEnd, if_neg (by decide), if_pos rfl]
    rfl
  have hend : Lexer.lexStringFrom 6 [.hole "\"b\"" 2] [] [] ['"'] = .ok ([.hole "\"b\"" 2], 1) := by
    rw [Lexer.lexStringFrom, if_neg (by decide), if_pos rfl]
    rfl
  have hlex : Lexer.lexString 1 ['`', '"', 'b', '"', '`', '"'] = .ok ([.hole "\"b\"" 2], 6) := by
    rw [Lexer.lexString, Lexer.lexStringFrom, if_neg (by decide), if_neg (by decide),
      if_neg (by decide), if_pos rfl, if_neg (by decide), hhole]
    show (Lexer.lexStringFrom 6 [.hole "\"b\"" 2] [] [] ['"'] >>= _) = _
    rw [hend]
    rfl
  refine (string_bounds_agree asciiXid [] ['`', '"', 'b', '"', '`', '"']).2 _ _ ?_
  rw [lexString_encode]
  show some (atBytes _ (Lexer.lexString 1 _)) = _
  rw [hlex]
  rfl

end Quilon.Lexer.Bytes
