import Mathlib.Data.List.Basic
import Mathlib.Order.Basic

/-!
# Programs that leave a trace

A program runs in a world and leaves a trace of what it did, also when it fails.  `Follows p q C`:
`p` runs exactly as `q` does from the states of `C`, and from any other state the two come apart,
which nothing behind them can mend (`Diverged`).  So a program built from such parts runs as its
model does from exactly the states where each part does in turn (`Follows.iff`).
-/

namespace Quilon

/-- A world, and what was done in it so far. -/
structure Traced (Event World : Type) where
  world : World
  trace : List Event

abbrev TracedM (Event World ε : Type) := EStateM ε (Traced Event World)

namespace TracedM

variable {Event World ε α β ι : Type}

/-- The world a program finds. -/
def world : TracedM Event World ε World := fun s => .ok s.world s

def note (event : Event) : TracedM Event World ε Unit := fun s =>
  .ok () { s with trace := s.trace ++ [event] }

/-- A step that knows of no trace. -/
def lift (step : World → Except ε α × World) : TracedM Event World ε α := fun s =>
  match step s.world with
  | (.ok a, world) => .ok a { s with world := world }
  | (.error e, world) => .error e { s with world := world }

/-- What was looked up, noted, or the failure. -/
def visit (event : α → Event) (missing : ε) : Option α → TracedM Event World ε α
  | none => throw missing
  | some a => do
    note (event a)
    return a

/-- One program for each item, in order. -/
def each (p : ι → TracedM Event World ε α) : List ι → TracedM Event World ε (List α)
  | [] => return []
  | i :: rest => do
    let a ← p i
    let as ← each p rest
    return a :: as

/-- The state behind a run. -/
def after : EStateM.Result ε (Traced Event World) α → Traced Event World
  | .ok _ s => s
  | .error _ s => s

def failed : EStateM.Result ε (Traced Event World) α → Prop
  | .ok _ _ => False
  | .error _ _ => True

/-- The run goes on with what it gave, unless it failed. -/
def resume (f : α → TracedM Event World ε β) :
    EStateM.Result ε (Traced Event World) α → EStateM.Result ε (Traced Event World) β
  | .ok a s => f a s
  | .error e s => .error e s

/-! ### Traces only grow -/

/-- A program only adds to the trace. -/
def Extends (p : TracedM Event World ε α) : Prop :=
  ∀ s, s.trace <+: (after (p s)).trace

theorem bind_apply (p : TracedM Event World ε α) (f : α → TracedM Event World ε β)
    (s : Traced Event World) :
    (p >>= f) s = resume f (p s) := by
  show EStateM.bind p f s = resume f (p s)
  unfold EStateM.bind
  cases p s <;> rfl

theorem extends_pure (a : α) : Extends (pure a : TracedM Event World ε α) := fun s =>
  List.prefix_refl s.trace

theorem extends_throw (e : ε) : Extends (throw e : TracedM Event World ε α) := fun s =>
  List.prefix_refl s.trace

theorem extends_world : Extends (world : TracedM Event World ε World) := fun s =>
  List.prefix_refl s.trace

theorem extends_note (event : Event) : Extends (note event : TracedM Event World ε Unit) :=
  fun s => List.prefix_append s.trace [event]

theorem extends_lift (step : World → Except ε α × World) :
    Extends (lift step : TracedM Event World ε α) := by
  intro s
  unfold lift
  split <;> exact List.prefix_refl s.trace

theorem Extends.bind {p : TracedM Event World ε α} {f : α → TracedM Event World ε β}
    (hp : Extends p) (hf : ∀ a, Extends (f a)) : Extends (p >>= f) := by
  intro s
  have hfirst := hp s
  rw [bind_apply]
  cases hrun : p s with
  | error e s' =>
    rw [hrun] at hfirst
    exact hfirst
  | ok a s' =>
    rw [hrun] at hfirst
    exact hfirst.trans (hf a s')

theorem extends_visit (event : α → Event) (missing : ε) (a : Option α) :
    Extends (visit event missing a : TracedM Event World ε α) := by
  cases a with
  | none => exact extends_throw missing
  | some a => exact (extends_note (event a)).bind fun _ => extends_pure a

/-! ### Runs that come apart -/

/-- At one place of their traces the runs differ, and neither will get to it any more if it is not
there yet. -/
def Diverged (r r' : EStateM.Result ε (Traced Event World) α) : Prop :=
  ∃ n : Nat, (after r).trace[n]? ≠ (after r').trace[n]? ∧
    ((after r).trace[n]? = none → failed r) ∧ ((after r').trace[n]? = none → failed r')

theorem Diverged.ne {r r' : EStateM.Result ε (Traced Event World) α} (h : Diverged r r') :
    r ≠ r' := by
  obtain ⟨n, hne, -, -⟩ := h
  rintro rfl
  exact hne rfl

/-- What stands in the trace of a run stays there when the run goes on. -/
theorem trace_resume {r : EStateM.Result ε (Traced Event World) α}
    {f : α → TracedM Event World ε β} (hf : ∀ a, Extends (f a)) {n : Nat}
    (hfailed : (after r).trace[n]? = none → failed r) :
    (after (resume f r)).trace[n]? = (after r).trace[n]? ∧
      ((after (resume f r)).trace[n]? = none → failed (resume f r)) := by
  cases r with
  | error e s => exact ⟨rfl, fun _ => trivial⟩
  | ok a s =>
    have hsome : s.trace[n]? ≠ none := fun hnone => hfailed hnone
    obtain ⟨event, hevent⟩ := Option.ne_none_iff_exists'.mp hsome
    obtain ⟨more, hmore⟩ := hf a s
    have hkept : (after (f a s)).trace[n]? = some event := by
      have hlt : n < s.trace.length := (List.getElem?_eq_some_iff.mp hevent).1
      rw [← hmore, List.getElem?_append_left hlt, hevent]
    constructor
    · show (after (f a s)).trace[n]? = s.trace[n]?
      rw [hkept, hevent]
    · intro hnone
      change (after (f a s)).trace[n]? = none at hnone
      rw [hkept] at hnone
      cases hnone

/-- What comes behind runs that came apart does not bring them together. -/
theorem Diverged.resume {r r' : EStateM.Result ε (Traced Event World) α} (h : Diverged r r')
    {f g : α → TracedM Event World ε β} (hf : ∀ a, Extends (f a)) (hg : ∀ a, Extends (g a)) :
    Diverged (resume f r) (resume g r') := by
  obtain ⟨n, hne, hfailed, hfailed'⟩ := h
  have hleft := trace_resume hf hfailed
  have hright := trace_resume hg hfailed'
  refine ⟨n, ?_, hleft.2, hright.2⟩
  rw [hleft.1, hright.1]
  exact hne

/-! ### Following a model -/

/-- `p` runs as `q` does from the states of `C`, and from the others the two come apart. -/
structure Follows (p q : TracedM Event World ε α) (C : Traced Event World → Prop) : Prop where
  extends_left : Extends p
  extends_right : Extends q
  same {s : Traced Event World} (h : C s) : p s = q s
  apart {s : Traced Event World} (h : ¬ C s) : Diverged (p s) (q s)

/-- `C`, and behind a run of `q` that does not fail, `D` of what it gives. -/
def andThen (C : Traced Event World → Prop) (q : TracedM Event World ε α)
    (D : α → Traced Event World → Prop) (s : Traced Event World) : Prop :=
  C s ∧
    match q s with
    | .ok a s' => D a s'
    | .error _ _ => True

/-- `C` of every item, each behind the runs of `q` for those before it. -/
def eachThen (C : ι → Traced Event World → Prop) (q : ι → TracedM Event World ε α) :
    List ι → Traced Event World → Prop
  | [] => fun _ => True
  | i :: rest => andThen (C i) (q i) fun _ => eachThen C q rest

variable {p q : TracedM Event World ε α} {C : Traced Event World → Prop}

theorem Follows.iff (h : Follows p q C) (s : Traced Event World) : p s = q s ↔ C s := by
  constructor
  · intro hsame
    by_contra hC
    exact (h.apart hC).ne hsame
  · exact h.same

theorem Follows.refl (hp : Extends p) : Follows p p fun _ => True where
  extends_left := hp
  extends_right := hp
  same _ := rfl
  apart h := absurd trivial h

theorem Follows.congr {D : Traced Event World → Prop} (h : Follows p q C) (hD : ∀ s, C s ↔ D s) :
    Follows p q D where
  extends_left := h.extends_left
  extends_right := h.extends_right
  same hs := h.same ((hD _).mpr hs)
  apart hs := h.apart fun hC => hs ((hD _).mp hC)

theorem Follows.bind {f g : α → TracedM Event World ε β} {D : α → Traced Event World → Prop}
    (h : Follows p q C) (hnext : ∀ a, Follows (f a) (g a) (D a)) :
    Follows (p >>= f) (q >>= g) (andThen C q D) where
  extends_left := h.extends_left.bind fun a => (hnext a).extends_left
  extends_right := h.extends_right.bind fun a => (hnext a).extends_right
  same {s} hs := by
    obtain ⟨hC, hD⟩ := hs
    rw [bind_apply, bind_apply, h.same hC]
    cases hrun : q s with
    | error e s' => rfl
    | ok a s' =>
      rw [hrun] at hD
      exact (hnext a).same hD
  apart {s} hs := by
    rw [bind_apply, bind_apply]
    by_cases hC : C s
    · rw [h.same hC]
      cases hrun : q s with
      | error e s' =>
        refine absurd ⟨hC, ?_⟩ hs
        rw [hrun]
        trivial
      | ok a s' =>
        refine (hnext a).apart fun hD => hs ⟨hC, ?_⟩
        rw [hrun]
        exact hD
    · exact (h.apart hC).resume (fun a => (hnext a).extends_left)
        fun a => (hnext a).extends_right

/-- Where the first step is the same program, the condition is on what is behind it. -/
theorem Follows.behind {f g : α → TracedM Event World ε β} {D : α → Traced Event World → Prop}
    (hp : Extends p) (hnext : ∀ a, Follows (f a) (g a) (D a)) :
    Follows (p >>= f) (p >>= g) (andThen (fun _ => True) p D) :=
  (Follows.refl hp).bind hnext

/-- What is made of the results at the end makes no difference. -/
theorem Follows.map (h : Follows p q C) (f : α → β) :
    Follows (p >>= fun a => pure (f a)) (q >>= fun a => pure (f a)) C := by
  refine (h.bind fun a => Follows.refl (extends_pure (f a))).congr fun s => ?_
  unfold andThen
  constructor
  · exact And.left
  · intro hC
    refine ⟨hC, ?_⟩
    cases q s <;> trivial

theorem Follows.each {p q : ι → TracedM Event World ε α} {C : ι → Traced Event World → Prop}
    (h : ∀ i, Follows (p i) (q i) (C i)) (items : List ι) :
    Follows (TracedM.each p items) (TracedM.each q items) (eachThen C q items) := by
  induction items with
  | nil => exact Follows.refl (extends_pure [])
  | cons i rest ih => exact (h i).bind fun a => ih.map fun as => a :: as

/-- A model that begins with the world it finds. -/
theorem Follows.worldRight {g : World → TracedM Event World ε α}
    {D : World → Traced Event World → Prop} (h : ∀ w, Follows p (g w) (D w)) :
    Follows p (world >>= g) fun s => D s.world s where
  extends_left s := (h s.world).extends_left s
  extends_right s := (h s.world).extends_right s
  same {s} hs := (h s.world).same hs
  apart {s} hs := (h s.world).apart hs

theorem Follows.world {f g : World → TracedM Event World ε α}
    {D : World → Traced Event World → Prop} (h : ∀ w, Follows (f w) (g w) (D w)) :
    Follows (TracedM.world >>= f) (TracedM.world >>= g) fun s => D s.world s where
  extends_left s := (h s.world).extends_left s
  extends_right s := (h s.world).extends_right s
  same {s} hs := (h s.world).same hs
  apart {s} hs := (h s.world).apart hs

/-- A look that finds what another look found, or does not. -/
theorem Follows.visit {event : α → Event} (hevent : Function.Injective event) (missing : ε)
    (find : World → Option α) (found : Option α) :
    Follows (TracedM.world >>= fun w => TracedM.visit event missing (find w))
      (TracedM.visit event missing found) fun s => find s.world = found where
  extends_left := extends_world.bind fun w => extends_visit event missing (find w)
  extends_right := extends_visit event missing found
  same {s} hs := by
    show TracedM.visit event missing (find s.world) s = _
    rw [hs]
  apart {s} hs := by
    show Diverged (TracedM.visit event missing (find s.world) s) _
    have hnone : s.trace[s.trace.length]? = none := List.getElem?_eq_none (Nat.le_refl _)
    have hlast (a : α) : (s.trace ++ [event a])[s.trace.length]? = some (event a) :=
      List.getElem?_concat_length
    refine ⟨s.trace.length, ?_⟩
    cases hfind : find s.world with
    | none =>
      cases found with
      | none => exact absurd hfind hs
      | some b =>
        refine ⟨?_, fun _ => trivial, fun h => ?_⟩
        · show s.trace[s.trace.length]? ≠ (s.trace ++ [event b])[s.trace.length]?
          rw [hnone, hlast]
          exact (Option.some_ne_none _).symm
        · change (s.trace ++ [event b])[s.trace.length]? = none at h
          rw [hlast] at h
          cases h
    | some a =>
      have hkept (h : (s.trace ++ [event a])[s.trace.length]? = none) : False := by
        rw [hlast] at h
        cases h
      cases found with
      | none =>
        refine ⟨?_, fun h => (hkept h).elim, fun _ => trivial⟩
        show (s.trace ++ [event a])[s.trace.length]? ≠ s.trace[s.trace.length]?
        rw [hnone, hlast]
        exact Option.some_ne_none _
      | some b =>
        refine ⟨?_, fun h => (hkept h).elim, fun h => ?_⟩
        · show (s.trace ++ [event a])[s.trace.length]? ≠ (s.trace ++ [event b])[s.trace.length]?
          rw [hlast, hlast]
          intro heq
          apply hs
          rw [hfind, hevent (Option.some.inj heq)]
        · change (s.trace ++ [event b])[s.trace.length]? = none at h
          rw [hlast] at h
          cases h

/-! ### What holds throughout a run -/

/-- A run from a state of `I` ends in one. -/
def Keeps (I : Traced Event World → Prop) (p : TracedM Event World ε α) : Prop :=
  ∀ s, I s → I (after (p s))

variable {I : Traced Event World → Prop}

theorem keeps_pure (a : α) : Keeps I (pure a : TracedM Event World ε α) := fun _ h => h

theorem keeps_throw (e : ε) : Keeps I (throw e : TracedM Event World ε α) := fun _ h => h

theorem Keeps.bind {f : α → TracedM Event World ε β} (hp : Keeps I p) (hf : ∀ a, Keeps I (f a)) :
    Keeps I (p >>= f) := by
  intro s hs
  have hfirst := hp s hs
  rw [bind_apply]
  cases hrun : p s with
  | error e s' =>
    rw [hrun] at hfirst
    exact hfirst
  | ok a s' =>
    rw [hrun] at hfirst
    exact hf a s' hfirst

theorem Keeps.each {p : ι → TracedM Event World ε α} (h : ∀ i, Keeps I (p i)) (items : List ι) :
    Keeps I (each p items) := by
  induction items with
  | nil => exact keeps_pure []
  | cons i rest ih => exact (h i).bind fun a => ih.bind fun as => keeps_pure (a :: as)

theorem Keeps.andThen {D : α → Traced Event World → Prop} (hq : Keeps I q)
    (hC : ∀ s, I s → C s) (hD : ∀ a s, I s → D a s) (s : Traced Event World) (hs : I s) :
    andThen C q D s := by
  have hkept := hq s hs
  refine ⟨hC s hs, ?_⟩
  cases hrun : q s with
  | error e s' => trivial
  | ok a s' =>
    rw [hrun] at hkept
    exact hD a s' hkept

theorem Keeps.eachThen {q : ι → TracedM Event World ε α} {C : ι → Traced Event World → Prop}
    (hq : ∀ i, Keeps I (q i)) (hC : ∀ i s, I s → C i s) (items : List ι)
    (s : Traced Event World) (hs : I s) : eachThen C q items s := by
  induction items generalizing s with
  | nil => trivial
  | cons i rest ih => exact (hq i).andThen (hC i) (fun _ => ih) s hs

end TracedM

end Quilon
