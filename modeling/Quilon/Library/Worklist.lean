import Mathlib.Data.List.Basic

/-!
# Worklist reachability

A stack of pending elements is emptied: an element met for the first time is recorded and its
successors are pushed.  The loop runs on fuel; an element outside a finite `support` has no
successors, which bounds the number of rounds.

Main results:

* `Worklist.run_closed` — the result holds what was pending and recorded, and is closed under
  successors;
* `Worklist.run_eq_some` — the loop ends: fuel above `Worklist.potential` is enough;
* `Worklist.run_mono` — more fuel gives the same result.
-/

namespace Quilon.Worklist

variable {α : Type*} [DecidableEq α] (successors : α → List α)

/-- `none` when the fuel runs out.  The successors of an element end up above what was pending,
the last one on top. -/
def run : Nat → List α → List α → Option (List α)
  | 0, _, _ => none
  | _ + 1, [], reached => some reached
  | fuel + 1, x :: pending, reached =>
    if x ∈ reached then run fuel pending reached
    else run fuel ((successors x).reverse ++ pending) (x :: reached)

/-- What is recorded has its successors recorded or pending. -/
def Frontier (pending reached : List α) : Prop :=
  ∀ x ∈ reached, ∀ y ∈ successors x, y ∈ reached ∨ y ∈ pending

variable {successors}

omit [DecidableEq α] in
theorem Frontier.pop {x : α} {pending reached : List α} (hx : x ∈ reached)
    (h : Frontier successors (x :: pending) reached) : Frontier successors pending reached := by
  intro z hz y hy
  rcases h z hz y hy with hreached | hpending
  · exact .inl hreached
  · rcases List.mem_cons.mp hpending with rfl | hpending
    · exact .inl hx
    · exact .inr hpending

omit [DecidableEq α] in
theorem Frontier.push {x : α} {pending reached : List α}
    (h : Frontier successors (x :: pending) reached) :
    Frontier successors ((successors x).reverse ++ pending) (x :: reached) := by
  intro z hz y hy
  rcases List.mem_cons.mp hz with rfl | hz
  · exact .inr (by simp [hy])
  · rcases h z hz y hy with hreached | hpending
    · exact .inl (List.mem_cons_of_mem _ hreached)
    · rcases List.mem_cons.mp hpending with rfl | hpending
      · exact .inl List.mem_cons_self
      · exact .inr (List.mem_append_right _ hpending)

theorem run_closed {fuel : Nat} {pending reached result : List α}
    (hfrontier : Frontier successors pending reached)
    (h : run successors fuel pending reached = some result) :
    reached ⊆ result ∧ pending ⊆ result ∧ ∀ x ∈ result, ∀ y ∈ successors x, y ∈ result := by
  induction fuel generalizing pending reached with
  | zero => simp [run] at h
  | succ fuel ih =>
    cases pending with
    | nil =>
      rw [run, Option.some.injEq] at h
      subst h
      exact ⟨List.Subset.refl _, List.nil_subset _, fun x hx y hy => by
        simpa using hfrontier x hx y hy⟩
    | cons x pending =>
      rw [run] at h
      by_cases hx : x ∈ reached
      · rw [if_pos hx] at h
        obtain ⟨hreached, hpending, hclosed⟩ := ih (hfrontier.pop hx) h
        exact ⟨hreached, List.cons_subset.mpr ⟨hreached hx, hpending⟩, hclosed⟩
      · rw [if_neg hx] at h
        obtain ⟨hreached, hpending, hclosed⟩ := ih hfrontier.push h
        refine ⟨fun y hy => hreached (List.mem_cons_of_mem _ hy), ?_, hclosed⟩
        exact List.cons_subset.mpr
          ⟨hreached List.mem_cons_self, fun y hy => hpending (List.mem_append_right _ hy)⟩

/-! ### Termination -/

variable (successors)

/-- The successors that elements not recorded yet may still push. -/
def unpushed (reached : List α) : List α → Nat
  | [] => 0
  | x :: support => (if x ∈ reached then 0 else (successors x).length) + unpushed reached support

/-- Everything pending, and everything that may still be pushed. -/
def potential (support pending reached : List α) : Nat :=
  pending.length + unpushed successors reached support

theorem unpushed_cons_le (x : α) (reached support : List α) :
    unpushed successors (x :: reached) support ≤ unpushed successors reached support := by
  induction support with
  | nil => exact Nat.le_refl _
  | cons y support ih =>
    simp only [unpushed, List.mem_cons]
    by_cases hy : y ∈ reached
    · simpa [hy] using ih
    · by_cases hyx : y = x
      · simp only [hyx, true_or, if_true]
        omega
      · simp only [hyx, hy, or_self, if_false]
        omega

/-- Recording an element of the support pays for the successors it pushes. -/
theorem unpushed_record (support : List α) {x : α} {reached : List α} (hx : x ∉ reached)
    (hsupport : x ∈ support) :
    unpushed successors (x :: reached) support + (successors x).length ≤
      unpushed successors reached support := by
  induction support with
  | nil => cases hsupport
  | cons y support ih =>
    by_cases hyx : y = x
    · subst hyx
      have hle := unpushed_cons_le successors y reached support
      simp only [unpushed, List.mem_cons_self, if_true, hx, if_false]
      omega
    · have hmem : x ∈ support := (List.mem_cons.mp hsupport).resolve_left fun h => hyx h.symm
      have hrest := ih hmem
      simp only [unpushed, List.mem_cons, hyx, false_or]
      omega

variable {successors}

theorem run_eq_some {support : List α} (hsupport : ∀ x, x ∉ support → successors x = [])
    {fuel : Nat} {pending reached : List α}
    (hfuel : potential successors support pending reached < fuel) :
    ∃ result, run successors fuel pending reached = some result := by
  induction fuel generalizing pending reached with
  | zero => omega
  | succ fuel ih =>
    cases pending with
    | nil => exact ⟨reached, rfl⟩
    | cons x pending =>
      rw [run]
      by_cases hx : x ∈ reached
      · rw [if_pos hx]
        apply ih
        simp only [potential, List.length_cons] at hfuel ⊢
        omega
      · rw [if_neg hx]
        apply ih
        by_cases hmem : x ∈ support
        · have hle := unpushed_record successors support hx hmem
          simp only [potential, List.length_cons, List.length_append, List.length_reverse]
            at hfuel ⊢
          omega
        · have hnone : (successors x).length = 0 := by rw [hsupport x hmem, List.length_nil]
          have hle := unpushed_cons_le successors x reached support
          simp only [potential, List.length_cons, List.length_append, List.length_reverse]
            at hfuel ⊢
          omega

/-- More fuel gives the same result. -/
theorem run_mono {fuel fuel' : Nat} (hfuel : fuel ≤ fuel') {pending reached result : List α}
    (h : run successors fuel pending reached = some result) :
    run successors fuel' pending reached = some result := by
  induction fuel generalizing fuel' pending reached with
  | zero => simp [run] at h
  | succ fuel ih =>
    obtain ⟨fuel', rfl⟩ : ∃ n, fuel' = n + 1 := ⟨fuel' - 1, by omega⟩
    cases pending with
    | nil => exact h
    | cons x pending =>
      rw [run] at h ⊢
      by_cases hx : x ∈ reached
      · rw [if_pos hx] at h ⊢
        exact ih (by omega) h
      · rw [if_neg hx] at h ⊢
        exact ih (by omega) h

end Quilon.Worklist
