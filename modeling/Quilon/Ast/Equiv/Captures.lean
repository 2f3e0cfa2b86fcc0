import Quilon.Ast.Captures

/-!
# What a closure captures

`mem_lambdaFreeIdents`: a captured name is a name of the enclosing function, and none of the
closure's own parameters.
-/

namespace Quilon

variable {outer : List String}

theorem mem_note {name n : String} {local_ out : List String}
    (h : n ∈ note name local_ outer out) : n ∈ out ∨ n ∈ outer ∧ n ∉ local_ := by
  unfold note at h
  split at h
  case isTrue hnoted =>
    rcases List.mem_append.mp h with hout | hname
    · exact .inl hout
    · obtain rfl := List.mem_singleton.mp hname
      simp at hnoted
      exact .inr ⟨hnoted.1.2, hnoted.1.1⟩
  case isFalse => exact .inl h

mutual

theorem subset_bindPattern (pattern : Pattern) (bound : List String) :
    bound ⊆ bindPattern pattern bound := by
  cases pattern with
  | identifier name span => exact List.subset_cons_self _ _
  | constructor name arguments span =>
    rw [bindPattern]
    exact subset_bindPatterns arguments bound
  | number value span => exact List.Subset.refl _
  | text value span => exact List.Subset.refl _
  | wildcard span => exact List.Subset.refl _

theorem subset_bindPatterns (patterns : List Pattern) (bound : List String) :
    bound ⊆ bindPatterns patterns bound := by
  cases patterns with
  | nil => exact List.Subset.refl _
  | cons pattern rest =>
    rw [bindPatterns]
    exact List.Subset.trans (subset_bindPattern pattern bound) (subset_bindPatterns rest _)

end

/-- A captured name stays one when more names are local than need to be. -/
theorem captured_of_subset {n : String} {local_ more out : List String} (hsub : local_ ⊆ more)
    (h : n ∈ out ∨ n ∈ outer ∧ n ∉ more) : n ∈ out ∨ n ∈ outer ∧ n ∉ local_ :=
  h.imp_right fun hn => ⟨hn.1, fun hlocal => hn.2 (hsub hlocal)⟩

theorem captured_trans {n : String} {local_ out between : List String}
    (h : n ∈ between ∨ n ∈ outer ∧ n ∉ local_)
    (hbetween : n ∈ between → n ∈ out ∨ n ∈ outer ∧ n ∉ local_) :
    n ∈ out ∨ n ∈ outer ∧ n ∉ local_ :=
  h.elim hbetween .inr

theorem subset_collectBinding (isMutable : Bool) (name : String) (local_ out : List String) :
    local_ ⊆ (collectBinding outer isMutable name local_ out).1 := by
  unfold collectBinding
  split
  · exact List.Subset.refl _
  · exact List.subset_cons_self _ _

theorem mem_collectBinding {isMutable : Bool} {name n : String} {local_ out : List String}
    (h : n ∈ (collectBinding outer isMutable name local_ out).2) :
    n ∈ out ∨ n ∈ outer ∧ n ∉ local_ := by
  unfold collectBinding at h
  split at h
  · exact mem_note h
  · exact .inl h

mutual

theorem mem_collect {n : String} : (e : Expression) → (local_ out : List String) →
    n ∈ collect outer e local_ out → n ∈ out ∨ n ∈ outer ∧ n ∉ local_
  | .identifier _ _, _, _, h => mem_note h
  | .number _ _, _, _, h | .string _ _, _, _, h | .bool _ _, _, _, h | .unit _, _, _, h => .inl h
  | .interpolation parts _, local_, out, h => mem_collectParts parts local_ out h
  | .binaryOperator left _ right _, local_, out, h | .range left right _, local_, out, h
  | .fieldAssign left right _, local_, out, h | .indexAssign left right _, local_, out, h
  | .index left right _, local_, out, h =>
    captured_trans (mem_collect right local_ _ h) (mem_collect left local_ out)
  | .unaryOperator _ e _, local_, out, h | .fieldAccess e _ _, local_, out, h
  | .spread e _, local_, out, h => mem_collect e local_ out h
  | .call function arguments _ _, local_, out, h =>
    captured_trans (mem_collectAll arguments local_ _ h) (mem_collect function local_ out)
  | .lambda _ _ body _, _, out, h =>
    captured_of_subset (List.subset_append_right _ _) (mem_collect body _ out h)
  | .block statements _, local_, out, h => mem_collectStatements statements local_ out h
  | .ifThenElse condition then_ else_ _, local_, out, h =>
    captured_trans (mem_collect else_ local_ _ h) fun h =>
      captured_trans (mem_collect then_ local_ _ h) (mem_collect condition local_ out)
  | .match_ e arms _, local_, out, h =>
    captured_trans (mem_collectArms arms local_ _ h) (mem_collect e local_ out)
  | .array elements _, local_, out, h | .setLiteral elements _, local_, out, h =>
    mem_collectAll elements local_ out h
  | .mapLiteral entries _, local_, out, h => mem_collectEntries entries local_ out h
  | .record fields _, local_, out, h | .constructor _ fields _, local_, out, h =>
    mem_collectFields fields local_ out h

theorem mem_collectAll {n : String} : (es : List Expression) → (local_ out : List String) →
    n ∈ collectAll outer es local_ out → n ∈ out ∨ n ∈ outer ∧ n ∉ local_
  | [], _, _, h => .inl h
  | e :: rest, local_, out, h =>
    captured_trans (mem_collectAll rest local_ _ h) (mem_collect e local_ out)

theorem mem_collectParts {n : String} : (parts : List InterpolationPart) →
    (local_ out : List String) →
    n ∈ collectParts outer parts local_ out → n ∈ out ∨ n ∈ outer ∧ n ∉ local_
  | [], _, _, h => .inl h
  | .literal _ :: rest, local_, out, h => mem_collectParts rest local_ out h
  | .hole e :: rest, local_, out, h =>
    captured_trans (mem_collectParts rest local_ _ h) (mem_collect e local_ out)

theorem mem_collectEntries {n : String} : (entries : List (Expression × Expression)) →
    (local_ out : List String) →
    n ∈ collectEntries outer entries local_ out → n ∈ out ∨ n ∈ outer ∧ n ∉ local_
  | [], _, _, h => .inl h
  | (key, value) :: rest, local_, out, h =>
    captured_trans (mem_collectEntries rest local_ _ h) fun h =>
      captured_trans (mem_collect value local_ _ h) (mem_collect key local_ out)

theorem mem_collectFields {n : String} : (fields : List (String × Expression)) →
    (local_ out : List String) →
    n ∈ collectFields outer fields local_ out → n ∈ out ∨ n ∈ outer ∧ n ∉ local_
  | [], _, _, h => .inl h
  | (_, value) :: rest, local_, out, h =>
    captured_trans (mem_collectFields rest local_ _ h) (mem_collect value local_ out)

theorem mem_collectArms {n : String} : (arms : List MatchArm) → (local_ out : List String) →
    n ∈ collectArms outer arms local_ out → n ∈ out ∨ n ∈ outer ∧ n ∉ local_
  | [], _, _, h => .inl h
  | ⟨pattern, body, _⟩ :: rest, local_, out, h =>
    captured_trans (mem_collectArms rest local_ _ h) fun h =>
      captured_of_subset (subset_bindPattern pattern local_) (mem_collect body _ out h)

theorem mem_collectStatements {n : String} : (statements : List Statement) →
    (local_ out : List String) →
    n ∈ collectStatements outer statements local_ out → n ∈ out ∨ n ∈ outer ∧ n ∉ local_
  | [], _, _, h => .inl h
  | .expression e :: rest, local_, out, h =>
    captured_trans (mem_collectStatements rest local_ _ h) (mem_collect e local_ out)
  | .item (.variableDeclaration ⟨isMutable, name, _, value, _, _, _⟩) :: rest, local_, out, h =>
    captured_trans
      (captured_of_subset (subset_collectBinding isMutable name local_ _)
        (mem_collectStatements rest _ _ h))
      fun h => captured_trans (mem_collectBinding h) (mem_collect value local_ out)
  | .item (.functionDeclaration ⟨name, _, _, _, body, _, _, _⟩) :: rest, local_, out, h =>
    captured_trans
      (captured_of_subset (List.subset_cons_self name local_) (mem_collectStatements rest _ _ h))
      fun h => captured_of_subset (List.subset_append_right _ _) (mem_collect body _ out h)
  | .item (.typeDeclaration _) :: rest, local_, out, h
  | .item (.trapDeclaration _) :: rest, local_, out, h =>
    mem_collectStatements rest local_ out h

end

theorem mem_lambdaFreeIdents {n : String} {parameters : List String} {body : Expression}
    (h : n ∈ lambdaFreeIdents parameters body outer) : n ∈ outer ∧ n ∉ parameters :=
  (mem_collect body parameters [] h).resolve_left List.not_mem_nil

end Quilon
