import Quilon.Ast.Nodes
import Mathlib.Data.List.Basic

/-!
# Sub-expressions

`Expression.children` lists the immediate sub-expressions of an expression, bodies of lambdas,
nested functions and methods included; `Within root e` says that `e` occurs in `root`.
`Expression.operands` lists those whose values a strict construct consumes, in source order.
-/

namespace Quilon

/-- The expressions a block statement holds. -/
def Statement.children : Statement → List Expression
  | .expression e => [e]
  | .item (.variableDeclaration declaration) => [declaration.value]
  | .item (.functionDeclaration declaration) => [declaration.body]
  | .item (.typeDeclaration declaration) => declaration.typeDefinition.methods.map (·.body)
  -- A trap is a top-level-only item.
  | .item (.trapDeclaration _) => []

def InterpolationPart.children : InterpolationPart → List Expression
  | .literal _ => []
  | .hole e => [e]

def Expression.children : Expression → List Expression
  | .number _ _ | .string _ _ | .bool _ _ | .unit _ | .identifier _ _ => []
  | .interpolation parts _ => parts.flatMap InterpolationPart.children
  | .binaryOperator left _ right _ => [left, right]
  | .unaryOperator _ expression _ => [expression]
  | .call function arguments _ _ => function :: arguments
  | .lambda _ _ body _ => [body]
  | .block statements _ => statements.flatMap Statement.children
  | .ifThenElse condition then_ else_ _ => [condition, then_, else_]
  | .match_ expression arms _ => expression :: arms.map (·.body)
  | .fieldAccess expression _ _ => [expression]
  | .fieldAssign target value _ => [target, value]
  | .index e i _ => [e, i]
  | .indexAssign target value _ => [target, value]
  | .array elements _ | .setLiteral elements _ => elements
  | .mapLiteral entries _ => entries.flatMap fun entry => [entry.1, entry.2]
  | .record fields _ | .constructor _ fields _ => fields.map (·.2)
  | .range start stop _ => [start, stop]
  | .spread expression _ => [expression]

theorem sizeOf_lt_of_mem_statement {s : Statement} {c : Expression} (h : c ∈ s.children) :
    sizeOf c < sizeOf s := by
  cases s with
  | expression e =>
    obtain rfl := List.mem_singleton.mp h
    simp
  | item item =>
    cases item with
    | variableDeclaration v =>
      obtain rfl := List.mem_singleton.mp h
      cases v
      simp
      omega
    | functionDeclaration f =>
      obtain rfl := List.mem_singleton.mp h
      cases f
      simp
      omega
    | typeDeclaration t =>
      obtain ⟨m, hm, rfl⟩ := List.mem_map.mp h
      obtain ⟨name, definition, exported, span⟩ := t
      cases definition <;> {
        have := List.sizeOf_lt_of_mem hm
        cases m
        simp [TypeDefinition.methods] at this ⊢
        omega }
    | trapDeclaration trap => cases h

/-- A sub-expression is smaller. -/
theorem sizeOf_lt_of_mem_children {e c : Expression} (h : c ∈ e.children) :
    sizeOf c < sizeOf e := by
  cases e <;> simp only [Expression.children, List.not_mem_nil, List.mem_cons, or_false,
    List.mem_flatMap, List.mem_map] at h
  case interpolation parts span =>
    obtain ⟨part, hpart, hc⟩ := h
    have := List.sizeOf_lt_of_mem hpart
    cases part with
    | literal => cases hc
    | hole e =>
      obtain rfl := List.mem_singleton.mp hc
      simp at this ⊢
      omega
  case call function arguments memberCall span =>
    rcases h with rfl | h
    · simp
      omega
    · have := List.sizeOf_lt_of_mem h
      simp
      omega
  case block statements span =>
    obtain ⟨s, hs, hc⟩ := h
    have := List.sizeOf_lt_of_mem hs
    have := sizeOf_lt_of_mem_statement hc
    simp
    omega
  case match_ scrutinee arms span =>
    rcases h with rfl | ⟨arm, harm, rfl⟩
    · simp
      omega
    · have := List.sizeOf_lt_of_mem harm
      cases arm
      simp at this ⊢
      omega
  case array elements span | setLiteral elements span =>
    have := List.sizeOf_lt_of_mem h
    simp
    omega
  case mapLiteral entries span =>
    obtain ⟨⟨key, value⟩, hentry, hc⟩ := h
    have := List.sizeOf_lt_of_mem hentry
    simp at this hc ⊢
    rcases hc with rfl | rfl <;> omega
  case record fields span | constructor typeName fields span =>
    obtain ⟨⟨name, value⟩, hfield, rfl⟩ := h
    have := List.sizeOf_lt_of_mem hfield
    simp at this ⊢
    omega
  all_goals
    rcases h with rfl | rfl | rfl <;> simp <;> omega

/-- Induction over sub-expressions. -/
theorem Expression.childrenInduction {motive : Expression → Prop}
    (h : ∀ e, (∀ c ∈ e.children, motive c) → motive e) (e : Expression) : motive e :=
  h e fun c _ => childrenInduction h c
termination_by sizeOf e
decreasing_by exact sizeOf_lt_of_mem_children ‹_›

/-- `e` occurs in `root`. -/
inductive Within (root : Expression) : Expression → Prop where
  | refl : Within root root
  | child {e c : Expression} : Within root e → c ∈ e.children → Within root c

namespace Within

theorem trans {a b c : Expression} (hab : Within a b) (hbc : Within b c) : Within a c := by
  induction hbc with
  | refl => exact hab
  | child _ hc ih => exact ih.child hc

/-- A property that passes to immediate sub-expressions passes to every one. -/
theorem hereditary {P : Expression → Prop} (hP : ∀ e, P e → ∀ c ∈ e.children, P c)
    {root e : Expression} (h : Within root e) (hroot : P root) : P e := by
  induction h with
  | refl => exact hroot
  | child _ hc ih => exact hP _ ih _ hc

end Within

/-- The code of one item, whether it is emitted or not. -/
def Item.bodies : Item → List Expression
  | .functionDeclaration f => [f.body]
  | .variableDeclaration v => [v.value]
  | .typeDeclaration t => t.typeDefinition.methods.map (·.body)
  | .trapDeclaration trap => trap.arms.map (·.body)

/-- `e` occurs in the program. -/
def Program.Contains (program : Program) (e : Expression) : Prop :=
  ∃ item ∈ program.items, ∃ root ∈ item.bodies, Within root e

/-- The parts of an expression whose values it consumes, in source order.  A called name is not
among them: it is resolved, not evaluated.  The target of an assignment is written, so only its
own parts are evaluated. -/
def Expression.operands : Expression → List Expression
  | .call (.identifier _ _) arguments _ _ => arguments
  | .fieldAssign (.fieldAccess object _ _) value _ => [object, value]
  | .indexAssign (.index e i _) value _ => [e, i, value]
  | .lambda _ _ _ _ | .block _ _ | .ifThenElse _ _ _ _ | .match_ _ _ _ => []
  | e => e.children

theorem within_of_mem_operands {root e c : Expression} (h : Within root e)
    (hc : c ∈ e.operands) : Within root c := by
  unfold Expression.operands at hc
  split at hc
  case h_1 function span arguments memberCall callSpan =>
    exact h.child (List.mem_cons_of_mem _ hc)
  case h_2 object field fieldSpan value span =>
    have htarget := h.child (c := .fieldAccess object field fieldSpan) (by simp [Expression.children])
    rcases List.mem_cons.mp hc with rfl | hc
    · exact htarget.child (by simp [Expression.children])
    · exact h.child (by simp_all [Expression.children])
  case h_3 e i indexSpan value span =>
    have htarget := h.child (c := .index e i indexSpan) (by simp [Expression.children])
    rcases List.mem_cons.mp hc with rfl | hc
    · exact htarget.child (by simp [Expression.children])
    · rcases List.mem_cons.mp hc with rfl | hc
      · exact htarget.child (by simp [Expression.children])
      · exact h.child (by simp_all [Expression.children])
  case h_8 => exact h.child hc
  all_goals simp at hc

end Quilon
