import Quilon.Ast.Nodes

/-!
# Types as they are written

`PartialEq` of `Type` (`src/ast/nodes.rs`), which the compiler derives: two types are equal when they
are written the same.  And the types `parse_type` gives (`parser/ast_parser/types.rs`): a declared
type is its name alone, and `Result` is written out.
-/

namespace Quilon.Ty

mutual

def same : Ty → Ty → Bool
  | .num, .num | .text, .text | .bool, .bool | .unit, .unit => true
  | .array a, .array b => same a b
  | .map ka va, .map kb vb => same ka kb && same va vb
  | .set a, .set b => same a b
  | .record as, .record bs => sameFields as bs
  | .named a as ms, .named b bs ns => decide (a = b) && sameFields as bs && decide (ms = ns)
  | .generic a, .generic b => decide (a = b)
  | .function ps r, .function qs s => sameAll ps qs && same r s
  | .sum a as, .sum b bs => decide (a = b) && sameVariants as bs
  | _, _ => false

def sameAll : List Ty → List Ty → Bool
  | [], [] => true
  | a :: as, b :: bs => same a b && sameAll as bs
  | _, _ => false

def sameFields : List (String × Ty) → List (String × Ty) → Bool
  | [], [] => true
  | (m, a) :: as, (n, b) :: bs => decide (m = n) && same a b && sameFields as bs
  | _, _ => false

def sameVariants : List (String × List Ty) → List (String × List Ty) → Bool
  | [], [] => true
  | (m, as) :: vs, (n, bs) :: ws => decide (m = n) && sameAll as bs && sameVariants vs ws
  | _, _ => false

end

mutual

theorem eq_of_same : ∀ {a b : Ty}, same a b = true → a = b
  | .num, b, h | .text, b, h | .bool, b, h | .unit, b, h => by cases b <;> simp_all [same]
  | .array a, b, h => by
    cases b <;> simp only [same, Bool.false_eq_true] at h
    rw [eq_of_same h]
  | .map k v, b, h => by
    cases b <;> simp only [same, Bool.false_eq_true, Bool.and_eq_true] at h
    rw [eq_of_same h.1, eq_of_same h.2]
  | .set a, b, h => by
    cases b <;> simp only [same, Bool.false_eq_true] at h
    rw [eq_of_same h]
  | .record as, b, h => by
    cases b <;> simp only [same, Bool.false_eq_true] at h
    rw [eq_of_sameFields h]
  | .named n as ms, b, h => by
    cases b <;> simp only [same, Bool.false_eq_true, Bool.and_eq_true, decide_eq_true_eq] at h
    rw [h.1.1, eq_of_sameFields h.1.2, h.2]
  | .generic n, b, h => by
    cases b <;> simp only [same, Bool.false_eq_true, decide_eq_true_eq] at h
    rw [h]
  | .function ps r, b, h => by
    cases b <;> simp only [same, Bool.false_eq_true, Bool.and_eq_true] at h
    rw [eq_of_sameAll h.1, eq_of_same h.2]
  | .sum n vs, b, h => by
    cases b <;> simp only [same, Bool.false_eq_true, Bool.and_eq_true, decide_eq_true_eq] at h
    rw [h.1, eq_of_sameVariants h.2]

theorem eq_of_sameAll : ∀ {as bs : List Ty}, sameAll as bs = true → as = bs
  | [], bs, h => by cases bs <;> simp_all [sameAll]
  | a :: as, bs, h => by
    cases bs <;> simp only [sameAll, Bool.false_eq_true, Bool.and_eq_true] at h
    rw [eq_of_same h.1, eq_of_sameAll h.2]

theorem eq_of_sameFields : ∀ {as bs : List (String × Ty)}, sameFields as bs = true → as = bs
  | [], bs, h => by cases bs <;> simp_all [sameFields]
  | (m, a) :: as, bs, h => by
    obtain _ | ⟨⟨n, b⟩, bs⟩ := bs
    · simp [sameFields] at h
    simp only [sameFields, Bool.and_eq_true, decide_eq_true_eq] at h
    rw [h.1.1, eq_of_same h.1.2, eq_of_sameFields h.2]

theorem eq_of_sameVariants : ∀ {vs ws : List (String × List Ty)},
    sameVariants vs ws = true → vs = ws
  | [], ws, h => by cases ws <;> simp_all [sameVariants]
  | (m, as) :: vs, ws, h => by
    obtain _ | ⟨⟨n, bs⟩, ws⟩ := ws
    · simp [sameVariants] at h
    simp only [sameVariants, Bool.and_eq_true, decide_eq_true_eq] at h
    rw [h.1.1, eq_of_sameAll h.1.2, eq_of_sameVariants h.2]

end

mutual

theorem same_self : ∀ a : Ty, same a a = true
  | .num | .text | .bool | .unit => by rw [same]
  | .array a | .set a => by rw [same, same_self a]
  | .map k v => by rw [same, same_self k, same_self v, Bool.and_self]
  | .record as => by rw [same, sameFields_self as]
  | .named n as ms => by simp [same, sameFields_self as]
  | .generic n => by simp [same]
  | .function ps r => by rw [same, sameAll_self ps, same_self r, Bool.and_self]
  | .sum n vs => by simp [same, sameVariants_self vs]

theorem sameAll_self : ∀ as : List Ty, sameAll as as = true
  | [] => by rw [sameAll]
  | a :: as => by rw [sameAll, same_self a, sameAll_self as, Bool.and_self]

theorem sameFields_self : ∀ as : List (String × Ty), sameFields as as = true
  | [] => by rw [sameFields]
  | (m, a) :: as => by simp [sameFields, same_self a, sameFields_self as]

theorem sameVariants_self : ∀ vs : List (String × List Ty), sameVariants vs vs = true
  | [] => by rw [sameVariants]
  | (m, as) :: vs => by simp [sameVariants, sameAll_self as, sameVariants_self vs]

end

instance : DecidableEq Ty := fun a b =>
  if h : same a b = true then isTrue (eq_of_same h)
  else isFalse fun heq => h (heq ▸ same_self a)

/-! ### Annotations -/

/-- `Result` as the parser writes it. -/
def result : Ty :=
  .sum "Result" [("Ok", [.generic "T"]), ("NotOk", [.generic "E"])]

mutual

/-- Whether `parse_type` gives the type. -/
def isWritten : Ty → Bool
  | .num | .text | .bool | .unit => true
  | .array element | .set element => isWritten element
  | .map key value => isWritten key && isWritten value
  | .record fields => fieldsAreWritten fields
  | .named _ fields methods => fields.isEmpty && methods.isEmpty
  | .function parameters returnType => areWritten parameters && isWritten returnType
  | .sum name variants => decide (Ty.sum name variants = result)
  | .generic _ => false

def areWritten : List Ty → Bool
  | [] => true
  | ty :: rest => isWritten ty && areWritten rest

def fieldsAreWritten : List (String × Ty) → Bool
  | [] => true
  | (_, ty) :: rest => isWritten ty && fieldsAreWritten rest

end

end Quilon.Ty
