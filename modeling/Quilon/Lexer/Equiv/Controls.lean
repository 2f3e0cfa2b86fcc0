import Mathlib.Data.Bool.AllAny
import Quilon.Lexer.Equiv.Lexemes

/-!
# Where controls can stand

Of the lexemes, only comments and string literals hold bidirectional controls
(`plain_of_nextLexeme`); a comment closes the scopes it opens (`feedAll_of_lexComment`).
-/

namespace Quilon.Lexer

open Bidi (ScopeStack bracket)
open Nesting (feedAll)
open Text (isBidiControl)

/-- No bidirectional control. -/
def Plain (text : List Char) : Prop := ∀ c ∈ text, isBidiControl c = false

theorem Plain.feedAll {text : List Char} (h : Plain text) (scopes : ScopeStack) :
    feedAll bracket scopes text = .ok scopes :=
  Nesting.feedAll_unmarked fun c hc => Bidi.bracket_of_not_control (h c hc)

theorem not_control_of_ascii {c : Char} (h : c.toNat < 128) : isBidiControl c = false := by
  rw [Text.isBidiControl]
  refine decide_eq_false fun hmem => ?_
  have hall : ∀ d ∈ ['\u202A', '\u202B', '\u202D', '\u202E', '\u202C', '\u2066', '\u2067', '\u2068',
      '\u2069', '\u200E', '\u200F', '\u061C'], 128 ≤ d.toNat :=
    List.all_iff_forall_prop.mp (by decide)
  exact absurd (hall c hmem) (Nat.not_le_of_lt h)

/-! ### Comments -/

theorem feedAll_of_feedScopes {token : String} {scopes scopes' : ScopeStack} {text : List Char}
    (h : feedScopes token scopes text = .ok scopes') :
    feedAll bracket scopes text = .ok scopes' := by
  induction text generalizing scopes with
  | nil =>
    obtain rfl := Except.ok.inj h
    rfl
  | cons c text ih =>
    rw [feedScopes] at h
    rw [Nesting.feedAll, ← Bidi.feed_eq]
    cases hfeed : scopes.feed c with
    | error ch =>
      rw [hfeed] at h
      cases h
    | ok next =>
      rw [hfeed] at h
      exact ih h

theorem feedAll_of_lexComment {text : List Char} (h : lexComment text = .ok ()) :
    feedAll bracket [] text = .ok [] := by
  obtain ⟨scopes, hscopes, h⟩ := bind_ok h
  rw [feedAll_of_feedScopes hscopes]
  cases hunclosed : scopes.unclosed with
  | none => rw [Bidi.unclosed_eq_none.mp hunclosed]
  | some ch =>
    rw [hunclosed] at h
    cases h

/-! ### The other lexemes -/

/-- The characters of symbols. -/
def isSymbol (c : Char) : Bool :=
  c ∈ ['=', ':', '-', '<', '>', '!', '+', '&', '|', '@', '^', '$', '?', '{', '}', '(', ')', '[',
    ']', ',', '.', '*', '/', '%', '`']

/-- The characters that a lexeme may have outside comments and string literals. -/
def isCode (xid : Xid) (c : Char) : Bool :=
  isBlank c || isDigit c || isSymbol c || c = '_' || xid.start c || xid.continue_ c

theorem ascii_of_isBlank {c : Char} (h : isBlank c = true) : c.toNat < 128 := by
  have hall : ∀ d ∈ [' ', '\t', '\r', '\n'], d.toNat < 128 :=
    List.all_iff_forall_prop.mp (by decide)
  exact hall c (of_decide_eq_true h)

theorem ascii_of_isDigit {c : Char} (h : isDigit c = true) : c.toNat < 128 := by
  rw [isDigit, Bool.and_eq_true, decide_eq_true_eq, decide_eq_true_eq] at h
  have hle : c.toNat ≤ '9'.toNat := h.2
  exact Nat.lt_of_le_of_lt hle (by decide)

theorem ascii_of_isSymbol {c : Char} (h : isSymbol c = true) : c.toNat < 128 := by
  have hall : ∀ d ∈ ['=', ':', '-', '<', '>', '!', '+', '&', '|', '@', '^', '$', '?', '{', '}',
      '(', ')', '[', ']', ',', '.', '*', '/', '%', '`'], d.toNat < 128 :=
    List.all_iff_forall_prop.mp (by decide)
  exact hall c (of_decide_eq_true h)

theorem not_control_of_isCode {xid : Xid} {c : Char} (h : isCode xid c = true) :
    isBidiControl c = false := by
  simp only [isCode, Bool.or_eq_true, decide_eq_true_eq] at h
  obtain ((((hblank | hdigit) | hsymbol) | hscore) | hstart) | hcontinue := h
  · exact not_control_of_ascii (ascii_of_isBlank hblank)
  · exact not_control_of_ascii (ascii_of_isDigit hdigit)
  · exact not_control_of_ascii (ascii_of_isSymbol hsymbol)
  · rw [hscore]
    rfl
  · refine Bool.eq_false_iff.mpr fun hcontrol => ?_
    rw [xid.start_control c hcontrol] at hstart
    cases hstart
  · refine Bool.eq_false_iff.mpr fun hcontrol => ?_
    rw [xid.continue_control c hcontrol] at hcontinue
    cases hcontinue

/-- Only characters of code. -/
def Code (xid : Xid) (text : List Char) : Prop := ∀ c ∈ text, isCode xid c = true

theorem Code.append {xid : Xid} {front back : List Char} (hfront : Code xid front)
    (hback : Code xid back) : Code xid (front ++ back) := by
  intro c hc
  obtain hc | hc := List.mem_append.mp hc
  · exact hfront c hc
  · exact hback c hc

theorem Code.cons {xid : Xid} {c : Char} {text : List Char} (hc : isCode xid c = true)
    (htext : Code xid text) : Code xid (c :: text) := List.forall_mem_cons.mpr ⟨hc, htext⟩

theorem Code.plain {xid : Xid} {text : List Char} (h : Code xid text) : Plain text :=
  fun c hc => not_control_of_isCode (h c hc)

theorem code_takeWhile {xid : Xid} {p : Char → Bool} {text : List Char}
    (h : ∀ c, p c = true → isCode xid c = true) : Code xid (text.takeWhile p) :=
  fun c hc => h c (List.mem_takeWhile_imp hc)

theorem take_length_takeWhile {p : Char → Bool} {text : List Char} :
    text.take (text.takeWhile p).length = text.takeWhile p := by
  have htake := congrArg (List.take (text.takeWhile p).length)
    (List.takeWhile_append_dropWhile (p := p) (l := text))
  rw [List.take_left] at htake
  exact htake.symm

section

variable {xid : Xid}

theorem isCode_of_isBlank {c : Char} (h : isBlank c = true) : isCode xid c = true := by
  simp [isCode, h]

theorem isCode_of_isDigit {c : Char} (h : isDigit c = true) : isCode xid c = true := by
  simp [isCode, h]

theorem isCode_of_isSymbol {c : Char} (h : isSymbol c = true) : isCode xid c = true := by
  simp [isCode, h]

theorem isCode_of_continue {c : Char} (h : xid.continue_ c = true) : isCode xid c = true := by
  simp [isCode, h]

theorem isCode_of_start {c : Char} (h : (c = '_' || xid.start c) = true) :
    isCode xid c = true := by
  rw [Bool.or_eq_true, decide_eq_true_eq] at h
  obtain h | h := h
  · simp [isCode, h]
  · simp [isCode, h]

end

theorem lexFraction_spec (xid : Xid) {text fraction rest : List Char} {point : Nat}
    (h : lexFraction text = (point, fraction, rest)) :
    ∃ dot, text = dot ++ (fraction ++ rest) ∧ dot.length = point ∧ Code xid (dot ++ fraction) := by
  revert h
  fun_cases lexFraction text with
  | case1 behind =>
    intro h
    obtain ⟨rfl, rfl, rfl⟩ := h
    have hdigits : Code xid (behind.takeWhile isDigit) := code_takeWhile fun _ => isCode_of_isDigit
    refine ⟨['.'], ?_, rfl, .cons (isCode_of_isSymbol rfl) hdigits⟩
    rw [List.takeWhile_append_dropWhile]
    rfl
  | case2 =>
    intro h
    obtain ⟨rfl, rfl, rfl⟩ := h
    exact ⟨[], rfl, rfl, nofun⟩

theorem lexNumber_spec (xid : Xid) {c : Char} {cs : List Char} {kind : TokenKind} {n : Nat}
    (h : lexNumber c cs = .ok (kind, n)) :
    (∃ value, kind = .number value) ∧ Code xid (cs.take n) := by
  rw [lexNumber] at h
  obtain ⟨⟨point, fraction, rest⟩, hparts⟩ : ∃ parts, lexFraction (cs.dropWhile isDigit) = parts :=
    ⟨_, rfl⟩
  obtain ⟨dot, htext, rfl, hcode⟩ := lexFraction_spec xid hparts
  rw [hparts] at h
  dsimp only at h
  split at h
  case isTrue => cases h
  case isFalse =>
    obtain ⟨rfl, rfl⟩ := Prod.mk.inj (Except.ok.inj h)
    refine ⟨⟨_, rfl⟩, ?_⟩
    have hcs : cs = (cs.takeWhile isDigit ++ (dot ++ fraction)) ++ rest := by
      rw [List.append_assoc, List.append_assoc, ← htext, List.takeWhile_append_dropWhile]
    have hlength : (c :: cs.takeWhile isDigit).length - 1 + dot.length + fraction.length =
        (cs.takeWhile isDigit ++ (dot ++ fraction)).length := by
      rw [List.length_append, List.length_append, List.length_cons, Nat.add_sub_cancel,
        Nat.add_assoc]
    have htake := congrArg (List.take (cs.takeWhile isDigit ++ (dot ++ fraction)).length) hcs
    rw [List.take_left] at htake
    rw [hlength, htake]
    exact (code_takeWhile fun _ => isCode_of_isDigit).append hcode

theorem lexWord_spec {xid : Xid} {c : Char} {cs : List Char} {kind : TokenKind} {n : Nat}
    (h : lexWord xid c cs = (kind, n)) :
    (∀ chunks, kind ≠ .string chunks) ∧ Code xid (cs.take n) := by
  obtain ⟨rfl, rfl⟩ := Prod.mk.inj h
  refine ⟨?_, ?_⟩
  · intro chunks
    split
    case isTrue => nofun
    case isFalse =>
      split
      case isTrue => nofun
      case isFalse =>
        split
        case isTrue => nofun
        case isFalse => nofun
  · rw [take_length_takeWhile]
    exact code_takeWhile fun _ => isCode_of_continue

theorem lexSymbol_spec {c : Char} {next : Option Char} {kind : TokenKind} {n : Nat}
    (h : lexSymbol c next = some (kind, n)) :
    (∀ chunks, kind ≠ .string chunks) ∧ isSymbol c = true ∧
      (n = 0 ∨ n = 1 ∧ ∃ d, next = some d ∧ isSymbol d = true) := by
  revert h
  fun_cases lexSymbol c next with
  | case41 => nofun
  | _ =>
    intro h
    obtain ⟨rfl, rfl⟩ := Prod.mk.inj (Option.some.inj h)
    first
      | exact ⟨nofun, by decide, Or.inl rfl⟩
      | exact ⟨nofun, by decide, Or.inr ⟨rfl, _, rfl, by decide⟩⟩

/-- What the text of a lexeme is. -/
def Shaped (xid : Xid) (offset : Nat) (kind : LexemeKind) (c : Char) (cs : List Char) (n : Nat) :
    Prop :=
  match kind with
  | .comment => cs.take n = cs.takeWhile (· ≠ '\n') ∧ lexComment (c :: cs.take n) = .ok ()
  | .token (.string chunks) => c = '"' ∧ lexString (offset + 1) cs = .ok (chunks, n)
  | _ => Code xid (c :: cs.take n)

theorem shaped_of_token {xid : Xid} {offset n : Nat} {kind : TokenKind} {c : Char} {cs : List Char}
    (hkind : ∀ chunks, kind ≠ .string chunks) (h : Code xid (c :: cs.take n)) :
    Shaped xid offset (.token kind) c cs n := by
  cases kind with
  | string chunks => exact absurd rfl (hkind chunks)
  | _ => exact h

theorem shaped_of_nextLexeme {xid : Xid} {offset n : Nat} {kind : LexemeKind} {c : Char}
    {cs : List Char} (h : nextLexeme xid offset c cs = .ok (kind, n)) :
    Shaped xid offset kind c cs n := by
  rw [nextLexeme] at h
  by_cases hblank : isBlank c = true
  · rw [if_pos hblank] at h
    obtain ⟨rfl, rfl⟩ := Prod.mk.inj (Except.ok.inj h)
    show Code xid (c :: cs.take _)
    rw [take_length_takeWhile]
    exact .cons (isCode_of_isBlank hblank) (code_takeWhile fun _ => isCode_of_isBlank)
  rw [if_neg hblank] at h
  by_cases hcomment : c = '~'
  · rw [if_pos hcomment] at h
    obtain ⟨⟨⟩, hscopes, h⟩ := bind_ok h
    obtain ⟨rfl, rfl⟩ := Prod.mk.inj (Except.ok.inj h)
    show cs.take _ = _ ∧ lexComment (c :: cs.take _) = _
    rw [take_length_takeWhile]
    exact ⟨rfl, hscopes⟩
  rw [if_neg hcomment] at h
  by_cases hcontrol : isBidiControl c = true
  · rw [if_pos hcontrol] at h
    cases h
  rw [if_neg hcontrol] at h
  by_cases hdigit : isDigit c = true
  · rw [if_pos hdigit] at h
    obtain ⟨⟨number, m⟩, hnumber, h⟩ := bind_ok h
    obtain ⟨rfl, rfl⟩ := Prod.mk.inj (Except.ok.inj h)
    obtain ⟨⟨value, rfl⟩, hcode⟩ := lexNumber_spec xid hnumber
    exact Code.cons (isCode_of_isDigit hdigit) hcode
  rw [if_neg hdigit] at h
  by_cases hquote : c = '"'
  · rw [if_pos hquote] at h
    obtain ⟨⟨chunks, m⟩, hstring, h⟩ := bind_ok h
    obtain ⟨rfl, rfl⟩ := Prod.mk.inj (Except.ok.inj h)
    exact ⟨hquote, hstring⟩
  rw [if_neg hquote] at h
  by_cases hword : (c = '_' || xid.start c) = true
  · rw [if_pos hword] at h
    obtain ⟨rfl, rfl⟩ := Prod.mk.inj (Except.ok.inj h)
    obtain ⟨hkind, hcode⟩ := lexWord_spec (rfl : lexWord xid c cs = (_, _))
    exact shaped_of_token hkind (.cons (isCode_of_start hword) hcode)
  rw [if_neg hword] at h
  cases hsymbol : lexSymbol c cs.head? with
  | none =>
    rw [hsymbol] at h
    cases h
  | some symbol =>
    obtain ⟨symbol, m⟩ := symbol
    rw [hsymbol] at h
    obtain ⟨rfl, rfl⟩ := Prod.mk.inj (Except.ok.inj h)
    obtain ⟨hkind, hc, rfl | ⟨rfl, d, hd, hsecond⟩⟩ := lexSymbol_spec hsymbol
    · exact shaped_of_token hkind (.cons (isCode_of_isSymbol hc) nofun)
    · obtain ⟨cs, rfl⟩ := List.head?_eq_some_iff.mp hd
      have hd : Code xid [d] := List.forall_mem_singleton.mpr (isCode_of_isSymbol hsecond)
      exact shaped_of_token hkind (.cons (isCode_of_isSymbol hc) hd)

/-- What a lexeme has to do with scopes. -/
def Sound (offset : Nat) (kind : LexemeKind) (c : Char) (cs : List Char) (n : Nat) : Prop :=
  match kind with
  | .comment => feedAll bracket [] (c :: cs.take n) = .ok []
  | .token (.string chunks) => c = '"' ∧ lexString (offset + 1) cs = .ok (chunks, n)
  | _ => Plain (c :: cs.take n)

theorem sound_of_nextLexeme {xid : Xid} {offset n : Nat} {kind : LexemeKind} {c : Char}
    {cs : List Char} (h : nextLexeme xid offset c cs = .ok (kind, n)) :
    Sound offset kind c cs n := by
  have hshape := shaped_of_nextLexeme h
  cases kind with
  | blank => exact Code.plain hshape
  | comment => exact feedAll_of_lexComment hshape.2
  | token kind =>
    cases kind with
    | string chunks => exact hshape
    | _ => exact Code.plain hshape

end Quilon.Lexer
