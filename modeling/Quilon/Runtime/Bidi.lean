import Quilon.Library.Nesting
import Quilon.Runtime.Text

/-!
# Bidirectional controls

`quilon-rt/src/bidi.rs`: the controls, and the stack of the scopes they have opened.
-/

namespace Quilon.Bidi

open Nesting

inductive Control where
  /-- LRE, RLE, LRO, RLO -/
  | openEmbedding
  /-- PDF -/
  | closeEmbedding
  /-- LRI, RLI, FSI -/
  | openIsolate
  /-- PDI -/
  | closeIsolate
  /-- LRM, RLM, ALM -/
  | mark
deriving DecidableEq

def classify (ch : Char) : Option Control :=
  if ch ∈ ['\u202A', '\u202B', '\u202D', '\u202E'] then some .openEmbedding
  else if ch = '\u202C' then some .closeEmbedding
  else if ch ∈ ['\u2066', '\u2067', '\u2068'] then some .openIsolate
  else if ch = '\u2069' then some .closeIsolate
  else if ch ∈ ['\u200E', '\u200F', '\u061C'] then some .mark
  else none

/-- The open scopes, the innermost first. -/
abbrev ScopeStack := List (Char × Control)

namespace ScopeStack

def feed (stack : ScopeStack) (ch : Char) : Except Char ScopeStack :=
  match classify ch with
  | some .openEmbedding => .ok ((ch, .openEmbedding) :: stack)
  | some .openIsolate => .ok ((ch, .openIsolate) :: stack)
  | some .closeEmbedding =>
    match stack with
    | (_, .openEmbedding) :: below => .ok below
    | _ => .error ch
  | some .closeIsolate =>
    match stack with
    | (_, .openIsolate) :: below => .ok below
    | _ => .error ch
  | some .mark | none => .ok stack

def unclosed (stack : ScopeStack) : Option Char := stack.head?.map Prod.fst

end ScopeStack

/-- A control as a bracket; a kind of scope is named by the control that opens it. -/
def bracket (ch : Char) : Option (Bracket Control) :=
  match classify ch with
  | some .openEmbedding => some (.opening .openEmbedding)
  | some .closeEmbedding => some (.closing .openEmbedding)
  | some .openIsolate => some (.opening .openIsolate)
  | some .closeIsolate => some (.closing .openIsolate)
  | some .mark | none => none

theorem feed_eq (stack : ScopeStack) (ch : Char) :
    stack.feed ch = Nesting.feed bracket stack ch := by
  unfold ScopeStack.feed Nesting.feed bracket
  cases classify ch with
  | none => rfl
  | some control =>
    rcases stack with _ | ⟨⟨opener, kind⟩, below⟩
    · cases control <;> rfl
    · cases control with
      | openEmbedding | openIsolate | mark => rfl
      | closeEmbedding => cases kind <;> rfl
      | closeIsolate => cases kind <;> rfl

theorem unclosed_eq_none {stack : ScopeStack} : stack.unclosed = none ↔ stack = [] := by
  cases stack with
  | nil => exact ⟨fun _ => rfl, fun _ => rfl⟩
  | cons top below => exact ⟨nofun, nofun⟩

theorem isBidiControl_eq (ch : Char) : Text.isBidiControl ch = (classify ch).isSome := by
  rw [Text.isBidiControl, classify]
  simp only [List.mem_cons, List.not_mem_nil, or_false]
  grind

theorem bracket_of_not_control {ch : Char} (h : Text.isBidiControl ch = false) :
    bracket ch = none := by
  rw [isBidiControl_eq, Option.isSome_eq_false_iff, Option.isNone_iff_eq_none] at h
  rw [bracket, h]

end Quilon.Bidi
