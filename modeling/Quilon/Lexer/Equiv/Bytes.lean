import Quilon.Lexer.Bytes
import Quilon.Lexer.Equiv.Segments
import Quilon.Library.Utf8Ascii

/-!
# The scanners on bytes and on characters

On the bytes of a text, the scanners find what those of `Scan.lean` find on its characters
(`scanHoleEnd_encode`, `lexStringFrom_encode`), so every slice they take is of whole characters.
-/

namespace Quilon.Lexer.Bytes

open Bidi (ScopeStack)
open Utf8 (encode encode_cons encode_append decodeChar? decode? length_encodeChar)

/-- The bytes of the first `n` characters. -/
def width (cs : List Char) (n : Nat) : Nat := extent Char.utf8Size (cs.take n)

theorem length_encode (cs : List Char) : (encode cs).length = extent Char.utf8Size cs := by
  induction cs with
  | nil => rfl
  | cons c cs ih => rw [encode_cons, List.length_append, length_encodeChar, ih, extent_cons]

theorem width_zero (cs : List Char) : width cs 0 = 0 := by rw [width, List.take_zero, extent_nil]

theorem width_succ (c : Char) (cs : List Char) (n : Nat) :
    width (c :: cs) (n + 1) = c.utf8Size + width cs n := by
  rw [width, List.take_succ_cons, extent_cons, width]

theorem width_add (cs : List Char) (m n : Nat) :
    width cs (m + n) = width cs m + width (cs.drop m) n := by
  rw [width, List.take_add, extent_append, width, width]

theorem drop_width (cs : List Char) (n : Nat) :
    (encode cs).drop (width cs n) = encode (cs.drop n) := by
  conv => lhs; rw [← List.take_append_drop n cs, encode_append]
  rw [width, List.take_append_drop, ← length_encode, List.drop_left]

theorem take_width (cs : List Char) (n : Nat) :
    (encode cs).take (width cs n) = encode (cs.take n) := by
  conv => lhs; rw [← List.take_append_drop n cs, encode_append]
  rw [width, List.take_append_drop, ← length_encode, List.take_left]

/-- The backtick that closes a hole is one byte. -/
theorem width_hole {cs : List Char} {hole : Nat} (h : Lexer.scanHoleEnd cs = .ok hole) :
    width cs (hole + 1) = width cs hole + 1 := by
  obtain ⟨hlt, hget⟩ := scanHoleEnd_spec h
  have hsize : '`'.utf8Size = 1 := rfl
  rw [List.getElem?_eq_getElem hlt, Option.some.injEq] at hget
  rw [width, List.take_succ_eq_append_getElem hlt, hget, extent_append, extent_cons, extent_nil,
    hsize, width]

/-! ### The bytes of one character -/

/-- A byte that the scanners step over. -/
def Plain (b : UInt8) : Prop := isNewline b = false ∧ b ≠ QUOTE ∧ b ≠ BACKSLASH ∧ b ≠ BACKTICK

theorem plain_of_le {b : UInt8} (h : 128 ≤ b) : Plain b := by
  have hne : ∀ d : UInt8, d < 128 → b ≠ d := by
    rintro d hd rfl
    rw [UInt8.lt_iff_toNat_lt] at hd
    rw [UInt8.le_iff_toNat_le] at h
    omega
  refine ⟨?_, hne QUOTE (by decide), hne BACKSLASH (by decide), hne BACKTICK (by decide)⟩
  rw [isNewline, decide_eq_false (hne NEWLINE (by decide)),
    decide_eq_false (hne RETURN (by decide))]
  rfl

theorem isNewline_encodeChar {c : Char} (h : Lexer.isNewline c = true) :
    ∃ b, String.utf8EncodeChar c = [b] ∧ isNewline b = true := by
  rw [Lexer.isNewline, Bool.or_eq_true, decide_eq_true_eq, decide_eq_true_eq] at h
  obtain rfl | rfl := h
  · exact ⟨NEWLINE, rfl, rfl⟩
  · exact ⟨RETURN, rfl, rfl⟩

/-- A byte below 128 is a character of its own. -/
theorem eq_of_mem_encodeChar {b : UInt8} {c d : Char} (h : b ∈ String.utf8EncodeChar c)
    (hd : String.utf8EncodeChar d = [b]) (hb : b < 128) : c = d := by
  have hc := Utf8.encodeChar_of_ascii_mem h hb
  have hleft := @Utf8.decodeChar?_append [] c
  have hright := @Utf8.decodeChar?_append [] d
  rw [hc] at hleft
  rw [hd] at hright
  exact Option.some.inj (hleft.symm.trans hright)

theorem plain_encodeChar {c : Char} (hnewline : Lexer.isNewline c = false) (hquote : c ≠ '"')
    (hescape : c ≠ '\\') (hback : c ≠ '`') : ∀ b ∈ String.utf8EncodeChar c, Plain b := by
  intro b hb
  rw [Lexer.isNewline, Bool.or_eq_false_iff, decide_eq_false_iff_not, decide_eq_false_iff_not]
    at hnewline
  refine ⟨?_, ?_, ?_, ?_⟩
  · rw [isNewline, Bool.or_eq_false_iff, decide_eq_false_iff_not, decide_eq_false_iff_not]
    constructor
    · rintro rfl
      exact hnewline.1 (eq_of_mem_encodeChar hb rfl (by decide))
    · rintro rfl
      exact hnewline.2 (eq_of_mem_encodeChar hb rfl (by decide))
  · rintro rfl
    exact hquote (eq_of_mem_encodeChar hb rfl (by decide))
  · rintro rfl
    exact hescape (eq_of_mem_encodeChar hb rfl (by decide))
  · rintro rfl
    exact hback (eq_of_mem_encodeChar hb rfl (by decide))

/-- The first byte of a character is one below 128 only in that byte's own character. -/
theorem first_eq_iff {first b : UInt8} {tail : List UInt8} {c d : Char}
    (h : String.utf8EncodeChar c = first :: tail) (hd : String.utf8EncodeChar d = [b])
    (hb : b < 128) : first = b ↔ c = d := by
  constructor
  · rintro rfl
    have hmem : first ∈ String.utf8EncodeChar c := by
      rw [h]
      exact List.mem_cons_self
    exact eq_of_mem_encodeChar hmem hd hb
  · rintro rfl
    rw [h] at hd
    exact (List.cons.inj hd).1

theorem isNewline_first {first : UInt8} {tail : List UInt8} {c : Char}
    (h : String.utf8EncodeChar c = first :: tail) : isNewline first = Lexer.isNewline c := by
  have hline : first = NEWLINE ↔ c = '\n' := first_eq_iff h rfl (by decide)
  have hreturn : first = RETURN ↔ c = '\r' := first_eq_iff h rfl (by decide)
  rw [isNewline, Lexer.isNewline, decide_eq_decide.mpr hline, decide_eq_decide.mpr hreturn]

theorem head?_encode_eq (cs : List Char) :
    (encode cs).head? = some BACKTICK ↔ cs.head? = some '`' := by
  cases cs with
  | nil => exact iff_of_false nofun nofun
  | cons c cs =>
    obtain ⟨first, tail, hc⟩ := List.exists_cons_of_ne_nil (@Utf8.encodeChar_ne_nil c)
    have hfirst : first = BACKTICK ↔ c = '`' := first_eq_iff hc rfl (by decide)
    rw [encode_cons, hc]
    show some first = some BACKTICK ↔ some c = some '`'
    rw [Option.some.injEq, Option.some.injEq, hfirst]

/-- The bytes behind the first of a character are 128 or above. -/
theorem plain_tail {b : UInt8} {tail : List UInt8} {c : Char}
    (h : String.utf8EncodeChar c = b :: tail) : ∀ d ∈ tail, Plain d :=
  fun _ hd => plain_of_le (Utf8.le_of_mem_tail h hd)

/-! ### Stepping over plain bytes -/

/-- The result some bytes further on. -/
def further (n : Nat) (result : Except TokenLexError Nat) : Except TokenLexError Nat :=
  result.map (n + ·)

/-- In a hole the scanner steps over backslashes as well. -/
theorem step_of_plain {b : UInt8} (h : Plain b ∨ b = BACKSLASH) :
    isNewline b = false ∧ b ≠ BACKTICK ∧ b ≠ QUOTE := by
  obtain ⟨hnewline, hquote, -, hback⟩ | rfl := h
  · exact ⟨hnewline, hback, hquote⟩
  · exact ⟨rfl, by decide, by decide⟩

theorem plain_or_backslash {c : Char} (hnewline : Lexer.isNewline c = false) (hquote : c ≠ '"')
    (hback : c ≠ '`') : ∀ b ∈ String.utf8EncodeChar c, Plain b ∨ b = BACKSLASH := by
  by_cases hescape : c = '\\'
  · subst hescape
    exact List.forall_mem_singleton.mpr (Or.inr rfl)
  · exact fun b hb => Or.inl (plain_encodeChar hnewline hquote hescape hback b hb)

theorem scanHoleEnd_plain {bytes rest : List UInt8} (h : ∀ b ∈ bytes, Plain b ∨ b = BACKSLASH) :
    scanHoleEnd (bytes ++ rest) = further bytes.length (scanHoleEnd rest) := by
  induction bytes with
  | nil =>
    rw [List.nil_append, List.length_nil, further]
    cases scanHoleEnd rest with
    | error e => rfl
    | ok n => exact congrArg Except.ok (Nat.zero_add n).symm
  | cons b bytes ih =>
    obtain ⟨hb, hbytes⟩ := List.forall_mem_cons.mp h
    obtain ⟨hnewline, hback, hquote⟩ := step_of_plain hb
    rw [List.cons_append, scanHoleEnd, if_neg (Bool.eq_false_iff.mp hnewline), if_neg hback,
      if_neg hquote, ih hbytes]
    cases scanHoleEnd rest with
    | error e => rfl
    | ok n =>
      refine congrArg Except.ok ?_
      show 1 + (bytes.length + n) = (bytes.length + 1) + n
      omega

theorem scanStringEnd_plain {bytes rest : List UInt8} (h : ∀ b ∈ bytes, Plain b) :
    scanStringEnd (bytes ++ rest) = further bytes.length (scanStringEnd rest) := by
  induction bytes with
  | nil =>
    rw [List.nil_append, List.length_nil, further]
    cases scanStringEnd rest with
    | error e => rfl
    | ok n => exact congrArg Except.ok (Nat.zero_add n).symm
  | cons b bytes ih =>
    obtain ⟨⟨hnewline, hquote, hescape, hback⟩, hbytes⟩ := List.forall_mem_cons.mp h
    rw [List.cons_append, scanStringEnd, if_neg (Bool.eq_false_iff.mp hnewline), if_neg hescape,
      if_neg hquote, if_neg hback, ih hbytes]
    cases scanStringEnd rest with
    | error e => rfl
    | ok n =>
      refine congrArg Except.ok ?_
      show 1 + (bytes.length + n) = (bytes.length + 1) + n
      omega

/-! ### On the bytes of a text -/

theorem further_map (n : Nat) (result : Except TokenLexError Nat) (f : Nat → Nat) :
    further n (result.map f) = result.map fun m => n + f m := by
  cases result with
  | error e => rfl
  | ok m => rfl

mutual

theorem scanHoleEnd_encode (cs : List Char) :
    scanHoleEnd (encode cs) = (Lexer.scanHoleEnd cs).map (width cs) := by
  cases cs with
  | nil =>
    rw [Lexer.scanHoleEnd]
    show scanHoleEnd [] = _
    rw [scanHoleEnd]
    rfl
  | cons c cs =>
    rw [Lexer.scanHoleEnd]
    by_cases hnewline : Lexer.isNewline c = true
    · obtain ⟨b, hc, hb⟩ := isNewline_encodeChar hnewline
      rw [if_pos hnewline, encode_cons, hc, List.singleton_append, scanHoleEnd, if_pos hb]
      rfl
    rw [if_neg hnewline]
    by_cases hback : c = '`'
    · subst hback
      show scanHoleEnd (BACKTICK :: encode cs) = _
      rw [if_pos rfl, scanHoleEnd, if_neg (by decide), if_pos rfl]
      exact congrArg Except.ok (width_zero _).symm
    rw [if_neg hback]
    by_cases hquote : c = '"'
    · subst hquote
      show scanHoleEnd (QUOTE :: encode cs) = _
      rw [if_pos rfl, scanHoleEnd, if_neg (by decide), if_neg (by decide), if_pos rfl,
        scanStringEnd_encode cs]
      cases hskipped : Lexer.scanStringEnd cs with
      | error e => rfl
      | ok skipped =>
        have hle := (scanStringEnd_le hskipped).2
        have hpos := (scanStringEnd_le hskipped).1
        show (scanHoleEnd ((encode cs).drop (width cs skipped)) >>= _) =
          (Lexer.scanHoleEnd (cs.drop skipped) >>= _).map _
        rw [drop_width, scanHoleEnd_encode (cs.drop skipped)]
        cases Lexer.scanHoleEnd (cs.drop skipped) with
        | error e => rfl
        | ok rest =>
          refine congrArg Except.ok ?_
          show 1 + width cs skipped + width (cs.drop skipped) rest =
            width ('"' :: cs) (1 + skipped + rest)
          have hsize : '"'.utf8Size = 1 := rfl
          rw [show 1 + skipped + rest = skipped + rest + 1 by omega, width_succ, width_add, hsize,
            Nat.add_assoc]
    · rw [if_neg hquote, encode_cons]
      have hplain := plain_or_backslash (Bool.eq_false_iff.mpr hnewline) hquote hback
      rw [scanHoleEnd_plain hplain, scanHoleEnd_encode cs, further_map, length_encodeChar]
      cases Lexer.scanHoleEnd cs with
      | error e => rfl
      | ok rest =>
        refine congrArg Except.ok ?_
        show c.utf8Size + width cs rest = width (c :: cs) (1 + rest)
        rw [Nat.add_comm 1 rest, width_succ]
termination_by cs.length

theorem scanStringEnd_encode (cs : List Char) :
    scanStringEnd (encode cs) = (Lexer.scanStringEnd cs).map (width cs) := by
  cases cs with
  | nil =>
    rw [Lexer.scanStringEnd]
    show scanStringEnd [] = _
    rw [scanStringEnd]
    rfl
  | cons c cs =>
    rw [Lexer.scanStringEnd]
    by_cases hnewline : Lexer.isNewline c = true
    · obtain ⟨b, hc, hb⟩ := isNewline_encodeChar hnewline
      rw [if_pos hnewline, encode_cons, hc, List.singleton_append, scanStringEnd, if_pos hb]
      rfl
    rw [if_neg hnewline]
    by_cases hescape : c = '\\'
    · subst hescape
      show scanStringEnd (BACKSLASH :: encode cs) = _
      rw [if_pos rfl, scanStringEnd, if_neg (by decide), if_pos rfl]
      cases cs with
      | nil =>
        rw [if_neg (by decide), if_neg (by decide)]
        show (scanStringEnd [] >>= _) = (Lexer.scanStringEnd [] >>= _).map _
        rw [scanStringEnd, Lexer.scanStringEnd]
        rfl
      | cons e cs =>
        obtain ⟨first, tail, he⟩ := List.exists_cons_of_ne_nil (@Utf8.encodeChar_ne_nil e)
        -- The scanner may step into a character, but over the rest of it.
        have hdrop : scanStringEnd ((encode (e :: cs)).drop 1) =
            further tail.length (scanStringEnd (encode cs)) := by
          rw [encode_cons, he, List.cons_append, List.drop_succ_cons, List.drop_zero]
          exact scanStringEnd_plain (plain_tail he)
        have hsize : tail.length + 1 = e.utf8Size := by
          rw [← length_encodeChar, he, List.length_cons]
        have hhead : (encode (e :: cs)).head?.any isNewline =
            (e :: cs).head?.any Lexer.isNewline := by
          rw [encode_cons, he]
          exact isNewline_first he
        rw [hhead]
        by_cases hbroken : (e :: cs).head?.any Lexer.isNewline = true
        · rw [if_pos hbroken, if_pos hbroken]
          rfl
        rw [if_neg hbroken, if_neg hbroken, hdrop, scanStringEnd_encode cs, further_map]
        show _ = (Lexer.scanStringEnd cs >>= _).map _
        cases Lexer.scanStringEnd cs with
        | error e => rfl
        | ok rest =>
          refine congrArg Except.ok ?_
          show 2 + (tail.length + width cs rest) = width ('\\' :: e :: cs) (2 + rest)
          have hslash : '\\'.utf8Size = 1 := rfl
          rw [show 2 + rest = rest + 1 + 1 by omega, width_succ, width_succ, hslash, ← hsize]
          omega
    rw [if_neg hescape]
    by_cases hquote : c = '"'
    · subst hquote
      show scanStringEnd (QUOTE :: encode cs) = _
      rw [if_pos rfl, scanStringEnd, if_neg (by decide), if_neg (by decide), if_pos rfl]
      rfl
    rw [if_neg hquote]
    by_cases hback : c = '`'
    · subst hback
      show scanStringEnd (BACKTICK :: encode cs) = _
      rw [if_pos rfl, scanStringEnd, if_neg (by decide), if_neg (by decide), if_neg (by decide),
        if_pos rfl]
      have hsize : '`'.utf8Size = 1 := rfl
      by_cases hdoubled : cs.head? = some '`'
      · rw [if_pos hdoubled, if_pos ((head?_encode_eq cs).mpr hdoubled)]
        obtain ⟨cs, rfl⟩ := List.head?_eq_some_iff.mp hdoubled
        show (scanStringEnd (encode cs) >>= _) = (Lexer.scanStringEnd cs >>= _).map _
        rw [scanStringEnd_encode cs]
        cases Lexer.scanStringEnd cs with
        | error e => rfl
        | ok rest =>
          refine congrArg Except.ok ?_
          show 2 + width cs rest = width ('`' :: '`' :: cs) (2 + rest)
          rw [show 2 + rest = rest + 1 + 1 by omega, width_succ, width_succ, hsize]
          omega
      · rw [if_neg hdoubled, if_neg (mt (head?_encode_eq cs).mp hdoubled), scanHoleEnd_encode cs]
        cases hhole : Lexer.scanHoleEnd cs with
        | error e => rfl
        | ok hole =>
          obtain ⟨hlt, -⟩ := scanHoleEnd_spec hhole
          show (scanStringEnd ((encode cs).drop (width cs hole + 1)) >>= _) =
            (Lexer.scanStringEnd (cs.drop (hole + 1)) >>= _).map _
          rw [← width_hole hhole, drop_width, scanStringEnd_encode (cs.drop (hole + 1))]
          cases Lexer.scanStringEnd (cs.drop (hole + 1)) with
          | error e => rfl
          | ok rest =>
            refine congrArg Except.ok ?_
            show 1 + width cs hole + 1 + width (cs.drop (hole + 1)) rest =
              width ('`' :: cs) (1 + hole + 1 + rest)
            have hwidth := width_hole hhole
            rw [show 1 + hole + 1 + rest = hole + 1 + rest + 1 by omega, width_succ, width_add,
              hsize]
            omega
    · rw [if_neg hback, encode_cons, scanStringEnd_plain
        (plain_encodeChar (Bool.eq_false_iff.mpr hnewline) hquote hescape hback),
        scanStringEnd_encode cs, further_map, length_encodeChar]
      cases Lexer.scanStringEnd cs with
      | error e => rfl
      | ok rest =>
        refine congrArg Except.ok ?_
        show c.utf8Size + width cs rest = width (c :: cs) (1 + rest)
        rw [Nat.add_comm 1 rest, width_succ]
termination_by cs.length

end

/-! ### Literals -/

theorem escaped_first {first : UInt8} {tail : List UInt8} {e : Char}
    (h : String.utf8EncodeChar e = first :: tail) : escaped first = Lexer.escaped e := by
  fun_cases Lexer.escaped e with
  | case8 _ hn hr ht he hquote hback hopen =>
    have hne : ∀ {d : Char} {b : UInt8}, String.utf8EncodeChar d = [b] → b < 128 → e ≠ d →
        first ≠ b := fun hd hb hned => mt (first_eq_iff h hd hb).mp hned
    have hbytes : first ≠ 110 ∧ first ≠ 114 ∧ first ≠ 116 ∧ first ≠ 101 ∧ first ≠ QUOTE ∧
        first ≠ BACKSLASH ∧ first ≠ 60 :=
      ⟨hne rfl (by decide) hn, hne rfl (by decide) hr, hne rfl (by decide) ht,
        hne rfl (by decide) he, hne rfl (by decide) hquote, hne rfl (by decide) hback,
        hne rfl (by decide) hopen⟩
    obtain ⟨hn, hr, ht, he, hquote, hback, hopen⟩ := hbytes
    rw [escaped, if_neg hn, if_neg hr, if_neg ht, if_neg he, if_neg hquote, if_neg hback,
      if_neg hopen]
  | _ =>
    obtain ⟨rfl, -⟩ := List.cons.inj h
    rfl

/-- Every escape is one byte. -/
theorem encodeChar_of_escaped {e decoded : Char} (h : Lexer.escaped e = some decoded) :
    ∃ b, String.utf8EncodeChar e = [b] := by
  revert h
  fun_cases Lexer.escaped e with
  | case8 =>
    intro h
    cases h
  | _ => exact fun _ => ⟨_, rfl⟩

/-- The bytes of a result. -/
def atBytes (cs : List Char) (result : Except TokenLexError (List StrChunk × Nat)) :
    Except TokenLexError (List StrChunk × Nat) :=
  result.map fun (chunks, n) => (chunks, width cs n)

theorem behind_atBytes {cs rest : List Char} {n k : Nat}
    (h : ∀ m, n + width rest m = width cs (k + m))
    (result : Except TokenLexError (List StrChunk × Nat)) :
    behind n (atBytes rest result) =
      atBytes cs (result.map fun (chunks, m) => (chunks, k + m)) := by
  cases result with
  | error e => rfl
  | ok found =>
    obtain ⟨chunks, m⟩ := found
    exact congrArg (fun width => Except.ok (chunks, width)) (h m)

theorem lexStringFrom_encode (offset : Nat) (chunks : List StrChunk) (lit : List Char)
    (scopes : ScopeStack) (cs : List Char) :
    lexStringFrom offset chunks lit scopes (encode cs) =
      some (atBytes cs (Lexer.lexStringFrom offset chunks lit scopes cs)) := by
  fun_induction Lexer.lexStringFrom offset chunks lit scopes cs with
  | case1 =>
    show lexStringFrom _ _ _ _ [] = _
    rw [lexStringFrom]
    rfl
  | case2 offset chunks lit scopes c cs hnewline =>
    obtain ⟨b, hc, hb⟩ := isNewline_encodeChar hnewline
    rw [encode_cons, hc, List.singleton_append, lexStringFrom.eq_def]
    dsimp only
    rw [if_pos hb]
    rfl
  | case3 offset chunks lit scopes cs ch hunclosed =>
    show lexStringFrom _ _ _ _ (QUOTE :: encode cs) = _
    rw [lexStringFrom.eq_def]
    dsimp only
    rw [if_neg (by decide), if_pos rfl, hunclosed]
    rfl
  | case4 offset chunks lit scopes cs hclosed hpending =>
    show lexStringFrom _ _ _ _ (QUOTE :: encode cs) = _
    rw [lexStringFrom.eq_def]
    dsimp only
    rw [if_neg (by decide), if_pos rfl, hclosed]
    dsimp only
    rw [if_pos hpending]
    rfl
  | case5 offset chunks lit scopes cs hclosed hpending =>
    show lexStringFrom _ _ _ _ (QUOTE :: encode cs) = _
    rw [lexStringFrom.eq_def]
    dsimp only
    rw [if_neg (by decide), if_pos rfl, hclosed]
    dsimp only
    rw [if_neg hpending]
    rfl
  | case6 =>
    show lexStringFrom _ _ _ _ [BACKSLASH] = _
    rw [lexStringFrom, if_neg (by decide), if_neg (by decide), if_pos rfl]
    rfl
  | case7 offset chunks lit scopes e cs hnewline =>
    obtain ⟨b, he, hb⟩ := isNewline_encodeChar hnewline
    show lexStringFrom _ _ _ _ (BACKSLASH :: encode (e :: cs)) = _
    rw [encode_cons, he, List.singleton_append, lexStringFrom.eq_def]
    dsimp only
    rw [if_neg (by decide), if_neg (by decide), if_pos rfl, if_pos hb]
    rfl
  | case8 offset chunks lit scopes e cs hnewline hescaped =>
    obtain ⟨first, tail, he⟩ := List.exists_cons_of_ne_nil (@Utf8.encodeChar_ne_nil e)
    show lexStringFrom _ _ _ _ (BACKSLASH :: encode (e :: cs)) = _
    rw [encode_cons, he, List.cons_append, lexStringFrom.eq_def]
    dsimp only
    rw [if_neg (by decide), if_neg (by decide), if_pos rfl, isNewline_first he,
      if_neg hnewline, escaped_first he, hescaped]
    rfl
  | case9 offset chunks lit scopes e cs hnewline decoded hescaped _ _ ih =>
    obtain ⟨b, he⟩ := encodeChar_of_escaped hescaped
    have hsize : e.utf8Size = 1 := by rw [← length_encodeChar, he, List.length_singleton]
    rw [hsize] at ih ⊢
    show lexStringFrom _ _ _ _ (BACKSLASH :: encode (e :: cs)) = _
    rw [encode_cons, he, List.singleton_append, lexStringFrom.eq_def]
    dsimp only
    rw [if_neg (by decide), if_neg (by decide), if_pos rfl, isNewline_first he,
      if_neg hnewline, escaped_first he, hescaped]
    dsimp only
    rw [ih]
    refine congrArg some (behind_atBytes (k := 2) ?_ _)
    intro m
    have hslash : '\\'.utf8Size = 1 := rfl
    rw [show 2 + m = m + 1 + 1 by omega, width_succ, width_succ, hslash, hsize]
    omega
  | case10 offset chunks lit scopes cs hdoubled _ _ _ ih =>
    show lexStringFrom _ _ _ _ (BACKTICK :: encode cs) = _
    obtain ⟨cs, rfl⟩ := List.head?_eq_some_iff.mp hdoubled
    rw [lexStringFrom.eq_def]
    dsimp only
    rw [if_neg (by decide), if_neg (by decide), if_neg (by decide), if_pos rfl,
      if_pos ((head?_encode_eq _).mpr hdoubled)]
    show (lexStringFrom _ _ _ _ (encode cs)).map _ = _
    rw [List.drop_succ_cons, List.drop_zero] at ih
    rw [ih]
    refine congrArg some (behind_atBytes (k := 2) ?_ _)
    intro m
    have hsize : '`'.utf8Size = 1 := rfl
    rw [show 2 + m = m + 1 + 1 by omega, width_succ, width_succ, hsize]
    omega
  | case11 offset chunks lit scopes cs hdoubled _ _ _ ih =>
    show lexStringFrom _ _ _ _ (BACKTICK :: encode cs) = _
    rw [lexStringFrom.eq_def]
    dsimp only
    rw [if_neg (by decide), if_neg (by decide), if_neg (by decide), if_pos rfl,
      if_neg (mt (head?_encode_eq cs).mp hdoubled), scanHoleEnd_encode cs]
    cases hhole : Lexer.scanHoleEnd cs with
    | error e => rfl
    | ok hole =>
      dsimp only [Except.map]
      rw [take_width, Utf8.decode?_encode]
      dsimp only [bind, Except.bind]
      by_cases hempty : (cs.take hole).all isWhiteSpace = true
      · rw [if_pos hempty, if_pos hempty]
        rfl
      rw [if_neg hempty, if_neg hempty, ← width_hole hhole, drop_width]
      have hstep : ∀ m, (1 + width cs hole + 1) + width (cs.drop (hole + 1)) m =
          width ('`' :: cs) (1 + hole + 1 + m) := by
        intro m
        have hsize : '`'.utf8Size = 1 := rfl
        have hclose := width_hole hhole
        rw [show 1 + hole + 1 + m = hole + 1 + m + 1 by omega, width_succ, width_add, hsize]
        omega
      have hrest := ih hole
      dsimp only at hrest
      have hwidth : extent Char.utf8Size (cs.take hole) = width cs hole := rfl
      rw [hwidth] at hrest ⊢
      rw [hrest]
      refine (congrArg some (behind_atBytes hstep _)).trans ?_
      rfl
  | case12 offset chunks lit scopes c cs hnewline hquote hescape hback ch hfeed =>
    obtain ⟨first, tail, hc⟩ := List.exists_cons_of_ne_nil (@Utf8.encodeChar_ne_nil c)
    obtain ⟨hline, hne⟩ := plain_encodeChar (Bool.eq_false_iff.mpr hnewline) hquote hescape hback
      first (by rw [hc]; exact List.mem_cons_self)
    have hdecode : decodeChar? (first :: (tail ++ encode cs)) = some c := by
      rw [← List.cons_append, ← hc]
      exact Utf8.decodeChar?_append
    rw [encode_cons, hc, List.cons_append, lexStringFrom.eq_def]
    dsimp only
    rw [if_neg (Bool.eq_false_iff.mp hline), if_neg hne.1, if_neg hne.2.1, if_neg hne.2.2, hdecode]
    dsimp only
    rw [hfeed]
    rfl
  | case13 offset chunks lit scopes c cs hnewline hquote hescape hback scopes' hfeed ih =>
    obtain ⟨first, tail, hc⟩ := List.exists_cons_of_ne_nil (@Utf8.encodeChar_ne_nil c)
    obtain ⟨hline, hne⟩ := plain_encodeChar (Bool.eq_false_iff.mpr hnewline) hquote hescape hback
      first (by rw [hc]; exact List.mem_cons_self)
    have hbytes : first :: (tail ++ encode cs) = String.utf8EncodeChar c ++ encode cs := by
      rw [hc, List.cons_append]
    rw [encode_cons, hc, List.cons_append, lexStringFrom.eq_def]
    dsimp only
    rw [if_neg (Bool.eq_false_iff.mp hline), if_neg hne.1, if_neg hne.2.1, if_neg hne.2.2, hbytes,
      Utf8.decodeChar?_append]
    dsimp only
    rw [hfeed]
    dsimp only
    rw [Utf8.drop_encodeChar, ih]
    refine congrArg some (behind_atBytes (k := 1) ?_ _)
    intro m
    rw [Nat.add_comm 1 m, width_succ]

end Quilon.Lexer.Bytes
