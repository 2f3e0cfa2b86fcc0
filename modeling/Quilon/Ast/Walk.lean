import Quilon.Ast.Within

/-!
# The walk over sub-expressions

`try_for_each_subexpression` (`src/ast/walk.rs`), as the searches use it: it breaks off at the first
sub-expression that answers.
-/

namespace Quilon

/-- Whether the walk breaks off, when it does at the sub-expressions with the property. -/
def Expression.walkBreaks (breaks : Expression → Bool) (expression : Expression) : Bool :=
  breaks expression ||
    expression.children.attach.any fun child => child.1.walkBreaks breaks
termination_by sizeOf expression
decreasing_by exact sizeOf_lt_of_mem_children child.2

theorem Within.cases_head {root e : Expression} (h : Within root e) :
    e = root ∨ ∃ child ∈ root.children, Within child e := by
  induction h with
  | refl => exact .inl rfl
  | @child e c _ hc ih =>
    rcases ih with rfl | ⟨child, hchild, hwithin⟩
    · exact .inr ⟨c, hc, .refl⟩
    · exact .inr ⟨child, hchild, hwithin.child hc⟩

/-- The walk passes over every sub-expression, until it breaks off. -/
theorem Expression.walkBreaks_iff {breaks : Expression → Bool} {root : Expression} :
    root.walkBreaks breaks = true ↔ ∃ e, Within root e ∧ breaks e = true := by
  induction root using Expression.childrenInduction with
  | h root ih =>
    rw [walkBreaks, Bool.or_eq_true, List.any_eq_true]
    constructor
    · rintro (hroot | ⟨child, -, hchild⟩)
      · exact ⟨root, .refl, hroot⟩
      · obtain ⟨e, hwithin, he⟩ := (ih child.1 child.2).mp hchild
        exact ⟨e, (Within.child .refl child.2).trans hwithin, he⟩
    · rintro ⟨e, hwithin, he⟩
      rcases hwithin.cases_head with rfl | ⟨child, hchild, hwithin⟩
      · exact .inl he
      · exact .inr ⟨⟨child, hchild⟩, List.mem_attach _ _,
          (ih child hchild).mpr ⟨e, hwithin, he⟩⟩

/-- Every sub-expression, in the order the walk passes over them. -/
def Expression.subexpressions (expression : Expression) : List Expression :=
  expression :: expression.children.attach.flatMap fun child => child.1.subexpressions
termination_by sizeOf expression
decreasing_by exact sizeOf_lt_of_mem_children child.2

theorem Expression.mem_subexpressions {root e : Expression} :
    e ∈ root.subexpressions ↔ Within root e := by
  induction root using Expression.childrenInduction with
  | h root ih =>
    rw [subexpressions, List.mem_cons, List.mem_flatMap]
    constructor
    · rintro (rfl | ⟨child, -, hchild⟩)
      · exact .refl
      · exact (Within.child .refl child.2).trans ((ih child.1 child.2).mp hchild)
    · intro hwithin
      rcases hwithin.cases_head with rfl | ⟨child, hchild, hwithin⟩
      · exact .inl rfl
      · exact .inr ⟨⟨child, hchild⟩, List.mem_attach _ _, (ih child hchild).mpr hwithin⟩

end Quilon
