import Mathlib.Algebra.Order.Group.Int
import Mathlib.Data.List.Basic

/-!
# Counted loops

A loop whose counter is a signed machine word, and what it takes for it to follow a fold over a
list: `Refines` relates two computations that fail alike or succeed in related states, and a loop
over as many places as the list is long follows the fold when each turn does
(`countedLoop_refines`).  The counter does not overflow (`toInt_counter`).
-/

namespace Quilon

section Refines

variable {ε : Type*} {α β σ τ : Type*}

/-- The same error, or results in relation. -/
inductive Refines (R : α → σ → Prop) : Except ε α → Except ε σ → Prop where
  | ok {a : α} {s : σ} (h : R a s) : Refines R (.ok a) (.ok s)
  | error (e : ε) : Refines R (.error e) (.error e)

variable {R R' : α → σ → Prop} {S : β → τ → Prop}

theorem Refines.mono {x : Except ε α} {y : Except ε σ} (h : Refines R x y)
    (himp : ∀ a s, R a s → R' a s) : Refines R' x y := by
  cases h with
  | ok h => exact .ok (himp _ _ h)
  | error e => exact .error e

/-- One computation after the other. -/
theorem Refines.bind {x : Except ε α} {y : Except ε σ} {f : α → Except ε β} {g : σ → Except ε τ}
    (h : Refines R x y) (hnext : ∀ a s, R a s → Refines S (f a) (g s)) :
    Refines S (x.bind f) (y.bind g) := by
  cases h with
  | ok h => exact hnext _ _ h
  | error e => exact .error e

/-- A last step of the second computation alone. -/
theorem Refines.lastRight {x : Except ε α} {y : Except ε σ} {g : σ → Except ε τ} {T : α → τ → Prop}
    (h : Refines R x y) (hlast : ∀ a s, R a s → ∃ t, g s = .ok t ∧ T a t) :
    Refines T x (y.bind g) := by
  cases h with
  | ok h =>
    obtain ⟨t, ht, hrel⟩ := hlast _ _ h
    rw [Except.bind, ht]
    exact .ok hrel
  | error e => exact .error e

/-- A last step of the first computation alone. -/
theorem Refines.lastLeft {x : Except ε α} {y : Except ε σ} {f : α → Except ε β} {T : β → σ → Prop}
    (h : Refines R x y) (hlast : ∀ a s, R a s → ∃ b, f a = .ok b ∧ T b s) :
    Refines T (x.bind f) y := by
  cases h with
  | ok h =>
    obtain ⟨b, hb, hrel⟩ := hlast _ _ h
    rw [Except.bind, hb]
    exact .ok hrel
  | error e => exact .error e

theorem Refines.refl (x : Except ε α) : Refines (· = ·) x x := by
  cases x with
  | ok a => exact .ok rfl
  | error e => exact .error e

/-- Two computations that follow the same one are related by way of it. -/
theorem Refines.join {x : Except ε α} {y : Except ε σ} {z : Except ε τ} {T : α → τ → Prop}
    (h : Refines R x y) (h' : Refines T x z) :
    Refines (fun s t => ∃ a, R a s ∧ T a t) y z := by
  cases h with
  | ok h =>
    cases h' with
    | ok h' => exact .ok ⟨_, h, h'⟩
  | error e =>
    cases h' with
    | error _ => exact .error e

end Refines

section Loop

variable {ε : Type*} {α β σ : Type*}

/-- Fold over a list, stopping at an error. -/
def foldE (f : β → α → Except ε α) : List β → α → Except ε α
  | [], a => .ok a
  | x :: xs, a => (f x a).bind (foldE f xs)

variable {i size : BitVec 64}

/-- Below a bound there is a next value. -/
theorem toInt_counter (h : i.slt size = true) : (i + 1#64).toInt = i.toInt + 1 := by
  have hlt : i.toInt < size.toInt := BitVec.slt_iff_toInt_lt.mp h
  have hmax : size.toInt < 2 ^ 63 := BitVec.toInt_lt
  have hmin : -2 ^ 63 ≤ i.toInt := BitVec.le_toInt i
  have hfits : ¬ BitVec.saddOverflow i 1#64 := by
    have hone : (1#64).toInt = 1 := by decide
    rw [BitVec.saddOverflow, hone]
    simp only [Nat.add_one_sub_one, ge_iff_le, Bool.or_eq_true, decide_eq_true_eq, not_or]
    omega
  rw [BitVec.toInt_add_of_not_saddOverflow hfits]
  rfl

/-- `while i < size`, with the counter going up by one. -/
def countedLoop (size : BitVec 64) (body : BitVec 64 → σ → Except ε σ) (i : BitVec 64) (s : σ) :
    Except ε σ :=
  if _more : i.slt size = true then (body i s).bind (countedLoop size body (i + 1#64)) else .ok s
termination_by (size.toInt - i.toInt).toNat
decreasing_by
  have hlt : i.toInt < size.toInt := BitVec.slt_iff_toInt_lt.mp _more
  rw [toInt_counter _more]
  omega

/-- From the place `k` on, the loop follows the fold over the rest of the list. -/
theorem countedLoop_refines_from {R : Nat → α → σ → Prop} {body : BitVec 64 → σ → Except ε σ}
    {xs : List β} {f : β → α → Except ε α} (hsize : size.toInt = xs.length)
    (hstep : ∀ (k : Nat) x a s, xs[k]? = some x → R k a s →
      Refines (R (k + 1)) (f x a) (body (BitVec.ofNat 64 k) s))
    {k : Nat} (hk : k ≤ xs.length) {a : α} {s : σ} (h : R k a s) :
    Refines (R xs.length) (foldE f (xs.drop k) a)
      (countedLoop size body (BitVec.ofNat 64 k) s) := by
  have hmax : size.toInt < 2 ^ 63 := BitVec.toInt_lt
  have hcounter : (BitVec.ofNat 64 k).toInt = k := by
    rw [BitVec.toInt_ofNat']
    exact Int.bmod_eq_of_le (by omega) (by omega)
  induction hn : xs.length - k generalizing k a s with
  | zero =>
    obtain rfl : k = xs.length := by omega
    rw [List.drop_length, foldE, countedLoop, dif_neg]
    · exact .ok h
    · rw [BitVec.slt_iff_toInt_lt, hcounter, hsize]
      exact Int.lt_irrefl _
  | succ n ih =>
    have hlt : k < xs.length := by omega
    rw [List.drop_eq_getElem_cons hlt, foldE, countedLoop, dif_pos]
    · refine (hstep k xs[k] a s (List.getElem?_eq_getElem hlt) h).bind fun a' s' h' => ?_
      have hnext : BitVec.ofNat 64 k + 1#64 = BitVec.ofNat 64 (k + 1) := by
        rw [BitVec.ofNat_add]
      rw [hnext]
      refine ih hlt h' ?_ (by omega)
      rw [BitVec.toInt_ofNat']
      exact Int.bmod_eq_of_le (by omega) (by omega)
    · rw [BitVec.slt_iff_toInt_lt, hcounter, hsize]
      exact Int.ofNat_lt.mpr hlt

/-- A loop whose turns follow the steps of a fold follows the fold. -/
theorem countedLoop_refines {R : Nat → α → σ → Prop} {body : BitVec 64 → σ → Except ε σ}
    {xs : List β} {f : β → α → Except ε α} (hsize : size.toInt = xs.length)
    (hstep : ∀ (k : Nat) x a s, xs[k]? = some x → R k a s →
      Refines (R (k + 1)) (f x a) (body (BitVec.ofNat 64 k) s))
    {a : α} {s : σ} (h : R 0 a s) :
    Refines (R xs.length) (foldE f xs a) (countedLoop size body 0#64 s) :=
  countedLoop_refines_from hsize hstep (Nat.zero_le _) h

end Loop

end Quilon
