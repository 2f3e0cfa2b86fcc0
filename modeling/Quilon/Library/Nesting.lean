import Mathlib.Data.List.Basic

/-!
# Nested scopes

Marks that open scopes of several kinds and marks that close them, the stack of the scopes that are
open, and the words it accepts: those where every scope is closed, innermost first
(`feedAll_nil_iff`).  What is read between two scopes being open does not touch the ones below
(`feedAll_above`).
-/

namespace Quilon.Nesting

variable {α κ : Type*}

/-- What a mark does to the scopes of its kind. -/
inductive Bracket (κ : Type*) where
  | opening (kind : κ)
  | closing (kind : κ)

variable [DecidableEq κ] (mark : α → Option (Bracket κ))

/-- Read one mark.  A closing one is an error unless the innermost open scope is of its kind. -/
def feed (stack : List (α × κ)) (a : α) : Except α (List (α × κ)) :=
  match mark a with
  | none => .ok stack
  | some (.opening kind) => .ok ((a, kind) :: stack)
  | some (.closing kind) =>
    match stack with
    | (_, kind') :: below => if kind' = kind then .ok below else .error a
    | [] => .error a

/-- Read a word. -/
def feedAll (stack : List (α × κ)) : List α → Except α (List (α × κ))
  | [] => .ok stack
  | a :: word => (feed mark stack a).bind fun stack => feedAll stack word

variable {mark} {stack base above : List (α × κ)} {word front back : List α} {a : α}

theorem feed_unmarked (h : mark a = none) : feed mark stack a = .ok stack := by
  rw [feed, h]

theorem feedAll_append (front back : List α) (stack : List (α × κ)) :
    feedAll mark stack (front ++ back) =
      (feedAll mark stack front).bind fun stack => feedAll mark stack back := by
  induction front generalizing stack with
  | nil => rfl
  | cons a front ih =>
    rw [List.cons_append, feedAll, feedAll]
    cases feed mark stack a with
    | error e => rfl
    | ok stack' => exact ih stack'

theorem feedAll_append_ok (hfront : feedAll mark stack front = .ok above) :
    feedAll mark stack (front ++ back) = feedAll mark above back := by
  rw [feedAll_append, hfront]
  rfl

/-- What is read before a word that can be read. -/
theorem exists_of_feedAll_append (h : feedAll mark stack (front ++ back) = .ok above) :
    ∃ between, feedAll mark stack front = .ok between := by
  rw [feedAll_append] at h
  cases hfront : feedAll mark stack front with
  | ok between => exact ⟨between, rfl⟩
  | error e =>
    rw [hfront] at h
    cases h

theorem feedAll_unmarked (h : ∀ a ∈ word, mark a = none) : feedAll mark stack word = .ok stack := by
  induction word with
  | nil => rfl
  | cons a word ih =>
    rw [feedAll, feed_unmarked (h a List.mem_cons_self)]
    exact ih fun b hb => h b (List.mem_cons_of_mem a hb)

theorem feed_above (h : feed mark stack a = .ok above) (base : List (α × κ)) :
    feed mark (stack ++ base) a = .ok (above ++ base) := by
  rw [feed] at h ⊢
  cases hmark : mark a with
  | none =>
    rw [hmark] at h
    obtain rfl := Except.ok.inj h
    rfl
  | some bracket =>
    rw [hmark] at h
    cases bracket with
    | opening kind =>
      obtain rfl := Except.ok.inj h
      rfl
    | closing kind =>
      cases stack with
      | nil => cases h
      | cons top below =>
        dsimp only [List.cons_append] at h ⊢
        by_cases hkind : top.2 = kind
        · rw [if_pos hkind] at h ⊢
          obtain rfl := Except.ok.inj h
          rfl
        · rw [if_neg hkind] at h
          cases h

/-- A word that is read from a stack is read the same above other open scopes. -/
theorem feedAll_above (h : feedAll mark stack word = .ok above) (base : List (α × κ)) :
    feedAll mark (stack ++ base) word = .ok (above ++ base) := by
  induction word generalizing stack with
  | nil =>
    obtain rfl := Except.ok.inj h
    rfl
  | cons a word ih =>
    rw [feedAll] at h ⊢
    cases hfeed : feed mark stack a with
    | error e =>
      rw [hfeed] at h
      cases h
    | ok next =>
      rw [hfeed] at h
      rw [feed_above hfeed]
      exact ih h

/-- Where every scope that is opened is closed, the innermost first. -/
inductive Nested (mark : α → Option (Bracket κ)) : List α → Prop where
  | nil : Nested mark []
  | unmarked {a : α} {word : List α} (h : mark a = none) (hword : Nested mark word) :
      Nested mark (a :: word)
  | scope {opener closer : α} {kind : κ} {inner word : List α}
      (hopen : mark opener = some (.opening kind)) (hinner : Nested mark inner)
      (hclose : mark closer = some (.closing kind)) (hword : Nested mark word) :
      Nested mark (opener :: inner ++ closer :: word)

theorem feedAll_of_nested (h : Nested mark word) : feedAll mark stack word = .ok stack := by
  induction h generalizing stack with
  | nil => rfl
  | unmarked h _ ih =>
    rw [feedAll, feed_unmarked h]
    exact ih
  | @scope opener closer kind inner word hopen _ hclose _ ihinner ihword =>
    have hopened : feed mark stack opener = .ok ((opener, kind) :: stack) := by rw [feed, hopen]
    have hclosed : feed mark ((opener, kind) :: stack) closer = .ok stack := by
      rw [feed, hclose]
      exact if_pos rfl
    rw [List.cons_append, feedAll, hopened]
    show feedAll mark ((opener, kind) :: stack) (inner ++ closer :: word) = _
    rw [feedAll_append_ok ihinner, feedAll, hclosed]
    exact ihword

/-- The word closes the scopes of the stack one by one, with nested words around the closers. -/
def Closes (mark : α → Option (Bracket κ)) : List (α × κ) → List α → Prop
  | [], word => Nested mark word
  | (_, kind) :: below, word => ∃ inner closer rest, word = inner ++ closer :: rest ∧
      Nested mark inner ∧ mark closer = some (.closing kind) ∧ Closes mark below rest

omit [DecidableEq κ] in
theorem Closes.unmarked (h : mark a = none) (hword : Closes mark stack word) :
    Closes mark stack (a :: word) := by
  cases stack with
  | nil => exact .unmarked h hword
  | cons top below =>
    obtain ⟨inner, closer, rest, rfl, hinner, hcloser, hrest⟩ := hword
    exact ⟨a :: inner, closer, rest, rfl, .unmarked h hinner, hcloser, hrest⟩

omit [DecidableEq κ] in
theorem Closes.scope {opener closer : α} {kind : κ} {inner rest : List α}
    (hopen : mark opener = some (.opening kind)) (hinner : Nested mark inner)
    (hclose : mark closer = some (.closing kind)) (hrest : Closes mark stack rest) :
    Closes mark stack (opener :: inner ++ closer :: rest) := by
  cases stack with
  | nil => exact .scope hopen hinner hclose hrest
  | cons top below =>
    obtain ⟨inner', closer', rest', rfl, hinner', hcloser', hrest'⟩ := hrest
    refine ⟨opener :: inner ++ closer :: inner', closer', rest', ?_,
      .scope hopen hinner hclose hinner', hcloser', hrest'⟩
    simp only [List.append_assoc, List.cons_append]

/-- A stack that ends empty has been closed. -/
theorem closes_of_feedAll (h : feedAll mark stack word = .ok []) : Closes mark stack word := by
  induction word generalizing stack with
  | nil =>
    obtain rfl := Except.ok.inj h
    exact .nil
  | cons a word ih =>
    rw [feedAll, feed] at h
    cases hmark : mark a with
    | none =>
      rw [hmark] at h
      exact (ih h).unmarked hmark
    | some bracket =>
      rw [hmark] at h
      cases bracket with
      | opening kind =>
        obtain ⟨inner, closer, rest, rfl, hinner, hcloser, hrest⟩ := ih h
        exact hrest.scope hmark hinner hcloser
      | closing kind =>
        cases stack with
        | nil => cases h
        | cons top below =>
          dsimp only at h
          by_cases hkind : top.2 = kind
          · rw [if_pos hkind] at h
            exact ⟨[], a, word, rfl, .nil, by rw [hkind, hmark], ih h⟩
          · rw [if_neg hkind] at h
            cases h

/-- The words that leave nothing open are the nested ones. -/
theorem feedAll_nil_iff : feedAll mark [] word = .ok [] ↔ Nested mark word :=
  ⟨closes_of_feedAll, feedAll_of_nested⟩

end Quilon.Nesting
