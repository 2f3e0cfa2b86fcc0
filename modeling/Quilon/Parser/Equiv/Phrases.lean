import Quilon.Parser

/-!
# Phrases

What a rule of the parser takes is a phrase: delimiters in pairs, every `<` either behind an `=>`
and the beginning of a block or behind an operand and less-than, every `>` the end of a block or
greater-than as the lexer has it (`Phrase`).  With it the parser has written down what each `<`
and `>` came to be (`Consumed`).
-/

namespace Quilon.Parser

open Lexer (Token TokenKind)

/-! ### Pieces -/

/-- The kinds an operand can end with. -/
def endsExpression : TokenKind → Bool
  | .number _ | .string _ | .true_ | .false_ | .unit | .ident | .entryPoint | .parenClose
  | .bracketClose | .braceClose | .blockClose => true
  | _ => false

/-- The binary operator a kind stands for. -/
def operatorOf : TokenKind → Option BinaryOperator
  | .or => some .or
  | .and => some .and
  | .eq => some .eq
  | .ne => some .ne
  | .le => some .le
  | .ge => some .ge
  | .blockOpen => some .lt
  | .gt => some .gt
  | .plus => some .add
  | .minus => some .sub
  | .star => some .mul
  | .slash => some .div
  | .percent => some .mod
  | .plusMinus | .minusPlus => some .setIntersect
  | _ => none

/-- No delimiter, no comparison and not the end. -/
def isPlain : TokenKind → Bool
  | .parenOpen | .parenClose | .bracketOpen | .bracketClose | .braceOpen | .braceClose
  | .blockOpen | .blockClose | .gt | .eof => false
  | _ => true

inductive IsPair : (opener closer : TokenKind) → Prop where
  | parens : IsPair .parenOpen .parenClose
  | brackets : IsPair .bracketOpen .bracketClose
  | braces : IsPair .braceOpen .braceClose

/-- The kind of a token, and what it came to be. -/
abbrev Piece := TokenKind × Option Use

/-- The kind before what follows the pieces. -/
def lastKind (previous : TokenKind) : List Piece → TokenKind
  | [] => previous
  | piece :: pieces => lastKind piece.1 pieces

/-- What the parser takes behind a token of kind `previous`. -/
inductive Phrase : (previous : TokenKind) → List Piece → Prop where
  | nil {previous} : Phrase previous []
  | append {previous front back} (hfront : Phrase previous front)
      (hback : Phrase (lastKind previous front) back) : Phrase previous (front ++ back)
  | plain {previous kind} (h : isPlain kind = true) : Phrase previous [(kind, none)]
  | operator {previous kind operator} (hends : endsExpression previous = true)
      (h : operatorOf kind = some operator) : Phrase previous [(kind, some (.operator operator))]
  | pair {previous opener closer body} (h : IsPair opener closer) (hbody : Phrase opener body) :
      Phrase previous ((opener, none) :: (body ++ [(closer, none)]))
  | block {body} (hbody : Phrase .blockOpen body) :
      Phrase .arrow
        ((.blockOpen, some .blockOpen) :: (body ++ [(.blockClose, some .blockClose)]))

/-! ### What is taken between two places -/

variable (input : Input)

def kindAt (i : Nat) : TokenKind := (tokenAt input i).kind

/-- The kind of the token before a place; there is none before the first, nor is it the end. -/
def kindBefore (i : Nat) : TokenKind := if i = 0 then .eof else kindAt input (i - 1)

/-- The tokens from a place on are of these kinds. -/
def LiesAt : Nat → List Piece → Prop
  | _, [] => True
  | i, piece :: pieces => kindAt input i = piece.1 ∧ LiesAt (i + 1) pieces

/-- What the tokens from a place on came to be. -/
def placed : Nat → List Piece → List (Nat × Use)
  | _, [] => []
  | i, (_, some role) :: pieces => (i, role) :: placed (i + 1) pieces
  | i, (_, none) :: pieces => placed (i + 1) pieces

/-- The parser takes a phrase from one state to the other, and writes down what its tokens came to
be. -/
def Consumed (s s' : Parser) : Prop :=
  ∃ pieces, s'.pos = s.pos + pieces.length ∧ LiesAt input s.pos pieces ∧
    Phrase (kindBefore input s.pos) pieces ∧
    ∀ entry, entry ∈ s'.uses ↔ entry ∈ placed s.pos pieces ∨ entry ∈ s.uses

/-- The parser takes an operand. -/
def Operand (s s' : Parser) : Prop :=
  Consumed input s s' ∧ s.pos < s'.pos ∧ endsExpression (kindBefore input s'.pos) = true

/-- The parser takes a phrase, and the delimiter behind it. -/
def ClosedBy (closer : TokenKind) (s s' : Parser) : Prop :=
  ∃ s₁, Consumed input s s₁ ∧ kindAt input s₁.pos = closer ∧ s'.pos = s₁.pos + 1 ∧
    s'.uses = s₁.uses

/-- The cursor one token on. -/
def next (s : Parser) : Parser := { s with pos := s.pos + 1 }

variable {input} {s s' s₁ : Parser}

theorem liesAt_append {i : Nat} {front back : List Piece} :
    LiesAt input i (front ++ back) ↔
      LiesAt input i front ∧ LiesAt input (i + front.length) back := by
  induction front generalizing i with
  | nil => exact ⟨fun h => ⟨trivial, h⟩, fun h => h.2⟩
  | cons piece front ih =>
    have hplace : i + (piece :: front).length = i + 1 + front.length := by
      rw [List.length_cons]
      omega
    rw [List.cons_append, LiesAt, LiesAt, ih, hplace, and_assoc]

theorem placed_append (i : Nat) (front back : List Piece) :
    placed i (front ++ back) = placed i front ++ placed (i + front.length) back := by
  induction front generalizing i with
  | nil => rfl
  | cons piece front ih =>
    have hplace : i + (piece :: front).length = i + 1 + front.length := by
      rw [List.length_cons]
      omega
    obtain ⟨kind, _ | role⟩ := piece
    · rw [List.cons_append, placed, placed, ih, hplace]
    · rw [List.cons_append, placed, placed, ih, hplace, List.cons_append]

theorem kindBefore_succ (i : Nat) : kindBefore input (i + 1) = kindAt input i := rfl

theorem lastKind_of_liesAt {i : Nat} {pieces : List Piece} (h : LiesAt input i pieces) :
    lastKind (kindBefore input i) pieces = kindBefore input (i + pieces.length) := by
  induction pieces generalizing i with
  | nil => rfl
  | cons piece pieces ih =>
    have hplace : i + (piece :: pieces).length = i + 1 + pieces.length := by
      rw [List.length_cons]
      omega
    rw [lastKind, ← h.1, ← kindBefore_succ, ih h.2, hplace]

/-! ### Taking phrase after phrase -/

/-- Nothing is taken. -/
theorem Consumed.of_same (hpos : s'.pos = s.pos) (huses : s'.uses = s.uses) :
    Consumed input s s' := by
  refine ⟨[], hpos, trivial, .nil, fun entry => ?_⟩
  rw [huses]
  exact ⟨Or.inr, fun h => h.resolve_left List.not_mem_nil⟩

theorem Consumed.refl (s : Parser) : Consumed input s s := .of_same rfl rfl

theorem Consumed.trans (h : Consumed input s s₁) (h' : Consumed input s₁ s') :
    Consumed input s s' := by
  obtain ⟨front, hpos, hlies, hphrase, huses⟩ := h
  obtain ⟨back, hpos', hlies', hphrase', huses'⟩ := h'
  rw [hpos] at hlies' hphrase'
  refine ⟨front ++ back, ?_, liesAt_append.mpr ⟨hlies, hlies'⟩, .append hphrase ?_, fun entry => ?_⟩
  · rw [hpos', hpos, List.length_append]
    omega
  · rw [lastKind_of_liesAt hlies]
    exact hphrase'
  · rw [huses', huses, placed_append, List.mem_append, hpos]
    tauto

theorem Consumed.next (h : isPlain (kindAt input s.pos) = true) : Consumed input s s.next :=
  ⟨[(kindAt input s.pos, none)], rfl, ⟨rfl, trivial⟩, .plain h, fun _ =>
    ⟨Or.inr, fun h => h.resolve_left List.not_mem_nil⟩⟩

theorem Consumed.le (h : Consumed input s s') : s.pos ≤ s'.pos := by
  obtain ⟨pieces, hpos, -⟩ := h
  omega

/-- A phrase between two tokens. -/
theorem Consumed.enclosed {opener closer : TokenKind} {role role' : Option Use} {t : Parser}
    (hphrase : ∀ body, Phrase opener body →
      Phrase (kindBefore input s.pos) ((opener, role) :: (body ++ [(closer, role')])))
    (hopen : kindAt input s.pos = opener) (hbody : Consumed input s.next s₁)
    (hclose : kindAt input s₁.pos = closer) (hpos : t.pos = s₁.pos + 1)
    (huses : ∀ entry, entry ∈ t.uses ↔
      entry ∈ placed s.pos [(opener, role)] ∨ entry ∈ placed s₁.pos [(closer, role')] ∨
        entry ∈ s₁.uses) : Consumed input s t := by
  obtain ⟨body, hbodyPos, hlies, hbody, hbodyUses⟩ := hbody
  replace hbodyPos : s₁.pos = s.pos + 1 + body.length := hbodyPos
  replace hbody : Phrase opener body := by
    rw [← hopen]
    exact hbody
  refine ⟨(opener, role) :: (body ++ [(closer, role')]), ?_,
    ⟨hopen, liesAt_append.mpr ⟨hlies, ?_, trivial⟩⟩, hphrase body hbody, fun entry => ?_⟩
  · rw [hpos, hbodyPos, List.length_cons, List.length_append, List.length_singleton]
    omega
  · rw [← hbodyPos]
    exact hclose
  · have hsplit : placed s.pos ((opener, role) :: (body ++ [(closer, role')])) =
        placed s.pos [(opener, role)] ++
          (placed (s.pos + 1) body ++ placed s₁.pos [(closer, role')]) := by
      rw [hbodyPos, ← placed_append]
      exact placed_append s.pos [(opener, role)] _
    have hinner := hbodyUses entry
    rw [huses, hsplit, List.mem_append, List.mem_append, hinner]
    show _ ∨ _ ∨ entry ∈ placed (s.pos + 1) body ∨ _ ↔ _
    tauto

theorem Consumed.pair {opener closer : TokenKind} (hpair : IsPair opener closer)
    (hopen : kindAt input s.pos = opener) (h : ClosedBy input closer s.next s') :
    Consumed input s s' := by
  obtain ⟨s₁, hbody, hclose, hpos, huses⟩ := h
  refine hbody.enclosed (fun body h => .pair hpair h) hopen hclose hpos fun entry => ?_
  rw [huses]
  exact ⟨fun h => Or.inr (Or.inr h), fun h =>
    (h.resolve_left List.not_mem_nil).resolve_left List.not_mem_nil⟩

theorem Consumed.block {t : Parser} (harrow : kindBefore input s.pos = .arrow)
    (hopen : kindAt input s.pos = .blockOpen) (hbody : Consumed input s.next s₁)
    (hclose : kindAt input s₁.pos = .blockClose) (hpos : t.pos = s₁.pos + 1)
    (huses : t.uses = (s₁.pos, .blockClose) :: (s.pos, .blockOpen) :: s₁.uses) :
    Consumed input s t := by
  have hphrase : ∀ body, Phrase .blockOpen body → Phrase (kindBefore input s.pos)
      ((.blockOpen, some .blockOpen) :: (body ++ [(.blockClose, some .blockClose)])) := by
    intro body h
    rw [harrow]
    exact .block h
  refine hbody.enclosed hphrase hopen hclose hpos fun entry => ?_
  · rw [huses, List.mem_cons, List.mem_cons]
    show _ ↔ entry ∈ [(s.pos, Use.blockOpen)] ∨ entry ∈ [(s₁.pos, Use.blockClose)] ∨ _
    rw [List.mem_singleton, List.mem_singleton]
    tauto

/-- An operator behind an operand, and what follows it. -/
theorem Consumed.operator {operator : BinaryOperator}
    (hends : endsExpression (kindBefore input s.pos) = true)
    (hoperator : operatorOf (kindAt input s.pos) = some operator)
    (hright : Consumed input s.next s₁) (hpos : s'.pos = s₁.pos)
    (huses : s'.uses = (s.pos, .operator operator) :: s₁.uses) : Consumed input s s' := by
  obtain ⟨right, hrightPos, hlies, hphrase, hrightUses⟩ := hright
  replace hrightPos : s₁.pos = s.pos + 1 + right.length := hrightPos
  refine ⟨(kindAt input s.pos, some (.operator operator)) :: right, ?_, ⟨rfl, hlies⟩,
    .append (.operator hends hoperator) hphrase, fun entry => ?_⟩
  · rw [hpos, hrightPos, List.length_cons]
    omega
  · have hinner := hrightUses entry
    rw [huses, List.mem_cons, hinner, placed, List.mem_cons, or_assoc]
    rfl

theorem Operand.trans (h : Consumed input s s₁) (h' : Operand input s₁ s') : Operand input s s' :=
  ⟨h.trans h'.1, Nat.lt_of_le_of_lt h.le h'.2.1, h'.2.2⟩

/-- A token that is an operand by itself. -/
theorem Operand.next (h : isPlain (kindAt input s.pos) = true)
    (hends : endsExpression (kindAt input s.pos) = true) : Operand input s s.next :=
  ⟨.next h, Nat.lt_succ_self _, hends⟩

end Quilon.Parser
