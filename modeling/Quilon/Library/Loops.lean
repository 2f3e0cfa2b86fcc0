import Mathlib.Tactic.Common

/-!
# Programs that may fail

Rules for the programs of `EStateM`: what holds of every result they give (`Yields`), and loops
that run until a round answers that it was the last (`iterate`).

Main results:
* `yields_bind` and the rules beside it: a program is gone through step by step;
* `yields_iterate`: what every round keeps, the loop keeps;
* `yields_iterate_last`: a loop that is allowed rounds enough ends with one that was the last;
* `iterate_eq`: where every round takes something off a measure, how many rounds a loop is allowed
  does not matter.
-/

namespace Quilon

variable {ε σ α β : Type}

/-! ### Results -/

/-- Every result of `m` from `s` satisfies `Q`. -/
def Yields (m : EStateM ε σ α) (s : σ) (Q : α → σ → Prop) : Prop :=
  ∀ a s', m s = .ok a s' → Q a s'

section Rules

variable {m : EStateM ε σ α} {s : σ} {Q R : α → σ → Prop}

theorem Yields.mono (h : Yields m s Q) (hmono : ∀ a s', Q a s' → R a s') : Yields m s R :=
  fun a s' hrun => hmono a s' (h a s' hrun)

theorem yields_ok {f : EStateM ε σ α} {a : α} {t : σ} (hf : f s = .ok a t) :
    Yields f s Q ↔ Q a t := by
  constructor
  · intro h
    exact h a t hf
  · intro h b t hrun
    obtain ⟨rfl, rfl⟩ := EStateM.Result.ok.inj (hf.symm.trans hrun)
    exact h

theorem yields_error {f : EStateM ε σ α} {e : ε} {s' : σ} (hf : f s = .error e s') :
    Yields f s Q := by
  intro a t hrun
  rw [hf] at hrun
  cases hrun

theorem yields_pure (a : α) : Yields (pure a : EStateM ε σ α) s Q ↔ Q a s := yields_ok rfl

theorem yields_throw (e : ε) : Yields (throw e : EStateM ε σ α) s Q := yields_error rfl

theorem yields_get {Q : σ → σ → Prop} : Yields (get : EStateM ε σ σ) s Q ↔ Q s s := yields_ok rfl

theorem yields_modify {Q : PUnit → σ → Prop} (f : σ → σ) :
    Yields (modify f : EStateM ε σ PUnit) s Q ↔ Q ⟨⟩ (f s) := yields_ok rfl

theorem bind_of_ok {a : α} {s' : σ} (h : m s = .ok a s') (k : α → EStateM ε σ β) :
    (m >>= k) s = k a s' := by
  show EStateM.bind m k s = k a s'
  rw [EStateM.bind, h]

theorem bind_of_error {e : ε} {s' : σ} (h : m s = .error e s') (k : α → EStateM ε σ β) :
    (m >>= k) s = .error e s' := by
  show EStateM.bind m k s = .error e s'
  rw [EStateM.bind, h]

theorem yields_bind {k : α → EStateM ε σ β} {Q : β → σ → Prop} :
    Yields (m >>= k) s Q ↔ Yields m s fun a s' => Yields (k a) s' Q := by
  constructor
  · intro h a s' hrun b t hk
    refine h b t ?_
    rw [bind_of_ok hrun]
    exact hk
  · intro h b t hrun
    cases hm : m s with
    | ok a s' =>
      rw [bind_of_ok hm] at hrun
      exact h a s' hm b t hrun
    | error e s' =>
      rw [bind_of_error hm] at hrun
      cases hrun

theorem Yields.bind {k : α → EStateM ε σ β} {Q : β → σ → Prop} (h : Yields m s R)
    (hk : ∀ a s', R a s' → Yields (k a) s' Q) : Yields (m >>= k) s Q :=
  yields_bind.mpr (h.mono hk)

theorem yields_map {f : α → β} {Q : β → σ → Prop} :
    Yields (f <$> m) s Q ↔ Yields m s fun a s' => Q (f a) s' := by
  rw [map_eq_pure_bind, yields_bind]
  exact forall_congr' fun a => forall_congr' fun s' => imp_congr_right fun _ => yields_pure (f a)

theorem yields_ite {p : Prop} [Decidable p] {m' : EStateM ε σ α} :
    Yields (if p then m else m') s Q ↔ (p → Yields m s Q) ∧ (¬p → Yields m' s Q) := by
  by_cases hp : p
  · rw [if_pos hp]
    exact ⟨fun h => ⟨fun _ => h, fun hnot => absurd hp hnot⟩, fun h => h.1 hp⟩
  · rw [if_neg hp]
    exact ⟨fun h => ⟨fun hyes => absurd hyes hp, fun _ => h⟩, fun h => h.2 hp⟩

end Rules

/-- The program changes nothing, and does not fail. -/
def Looks (m : EStateM ε σ α) : Prop := ∀ s, ∃ a, m s = .ok a s

section Looks

variable {m : EStateM ε σ α} {k : α → EStateM ε σ β}

theorem looks_pure (a : α) : Looks (pure a : EStateM ε σ α) := fun _ => ⟨a, rfl⟩

theorem looks_get : Looks (get : EStateM ε σ σ) := fun s => ⟨s, rfl⟩

theorem Looks.bind (hm : Looks m) (hk : ∀ a, Looks (k a)) : Looks (m >>= k) := by
  intro s
  obtain ⟨a, ha⟩ := hm s
  rw [bind_of_ok ha]
  exact hk a s

theorem Looks.yields (hm : Looks m) {s : σ} {Q : α → σ → Prop} (h : ∀ a, Q a s) :
    Yields m s Q := by
  obtain ⟨a, ha⟩ := hm s
  exact (yields_ok ha).mpr (h a)

theorem Looks.then (hm : Looks m) {s : σ} {Q : β → σ → Prop} (h : ∀ a, Yields (k a) s Q) :
    Yields (m >>= k) s Q :=
  yields_bind.mpr (hm.yields h)

end Looks

/-! ### Loops -/

/-- At most `fuel` rounds, each from what the one before it gave, until a round gives nothing. -/
def iterate (round : α → EStateM ε σ (Option α)) : (fuel : Nat) → α → EStateM ε σ α
  | 0, a => return a
  | fuel + 1, a => do
    match ← round a with
    | none => return a
    | some b => iterate round fuel b

section Loops

variable {round : α → EStateM ε σ (Option α)} {a : α} {s : σ} {fuel : Nat}

theorem yields_iterate {I : α → σ → Prop} (h : I a s)
    (hround : ∀ a s, I a s → Yields (round a) s fun b s' => I (b.getD a) s') :
    Yields (iterate round fuel a) s I := by
  induction fuel generalizing a s with
  | zero =>
    rw [iterate, yields_pure]
    exact h
  | succ fuel ih =>
    rw [iterate, yields_bind]
    refine (hround a s h).mono fun b s' hb => ?_
    cases b with
    | none =>
      show Yields (pure a) s' I
      rw [yields_pure]
      exact hb
    | some b => exact ih hb

/-- A round that goes on leaves less behind. -/
def Shrinks (round : α → EStateM ε σ (Option α)) (measure : σ → Nat) : Prop :=
  ∀ a s, Yields (round a) s fun b s' => b.isSome → measure s' < measure s

theorem iterate_eq {measure : σ → Nat} (hround : Shrinks round measure) {more : Nat}
    (hfuel : measure s < fuel) (hmore : measure s < more) :
    iterate round fuel a s = iterate round more a s := by
  induction fuel generalizing a s more with
  | zero => omega
  | succ fuel ih =>
    obtain _ | more := more
    · omega
    · rw [iterate, iterate]
      cases hrun : round a s with
      | error e s' => rw [bind_of_error hrun, bind_of_error hrun]
      | ok b s' =>
        rw [bind_of_ok hrun, bind_of_ok hrun]
        cases b with
        | none => rfl
        | some b =>
          have hless : measure s' < measure s := hround a s (some b) s' hrun rfl
          exact ih (by omega) (by omega)

/-- With rounds enough, a loop ends with a round that was the last. -/
theorem yields_iterate_last {measure : σ → Nat} (hround : Shrinks round measure)
    {I Q : α → σ → Prop} (hfuel : measure s < fuel) (h : I a s)
    (hkeeps : ∀ a s, I a s → Yields (round a) s fun b s' =>
      I (b.getD a) s' ∧ (b = none → Q a s')) : Yields (iterate round fuel a) s Q := by
  induction fuel generalizing a s with
  | zero => omega
  | succ fuel ih =>
    rw [iterate, yields_bind]
    intro b s' hrun
    have hnext := hkeeps a s h b s' hrun
    cases b with
    | none => exact (yields_pure a).mpr (hnext.2 rfl)
    | some b =>
      have hless : measure s' < measure s := hround a s (some b) s' hrun rfl
      exact ih (by omega) hnext.1

/-- With rounds enough, the loop is its first round and the loop behind it. -/
theorem iterate_unfold {measure : σ → Nat} (hround : Shrinks round measure)
    (hfuel : measure s < fuel) :
    iterate round fuel a s = (round a >>= fun b => b.elim (pure a) (iterate round fuel)) s := by
  obtain _ | fuel := fuel
  · omega
  · rw [iterate]
    cases hrun : round a s with
    | error e s' => rw [bind_of_error hrun, bind_of_error hrun]
    | ok b s' =>
      rw [bind_of_ok hrun, bind_of_ok hrun]
      cases b with
      | none => rfl
      | some b =>
        have hless : measure s' < measure s := hround a s (some b) s' hrun rfl
        exact iterate_eq hround (by omega) (by omega)

end Loops

end Quilon
