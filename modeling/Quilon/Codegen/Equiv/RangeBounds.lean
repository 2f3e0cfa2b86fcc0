import Mathlib.Algebra.Order.Group.Unbundled.Abs
import Mathlib.Algebra.Order.Group.Abs
import Mathlib.Algebra.Order.Ring.Cast
import Quilon.Codegen.Ranges

/-!
# The bounds of a range

An end that passes the check is a whole number of magnitude at most `2^53`
(`checkRangeEndpoint_ok`), and folding a literal end is not seen (`rangeEndpoint_eq`).  Between two such ends nothing overflows
(`boundsOf_noOverflow`), and element `k` is the whole number `k` steps from the first end
(`rangeElement_eq`), which a double holds exactly.
-/

namespace Quilon.Ranges

/-- The whole numbers from `lo` to `hi`, both among them. -/
def wholeNumbers (lo hi : Int) : List Int :=
  if lo ≤ hi then (List.range (hi - lo + 1).toNat).map fun (k : Nat) => lo + k
  else (List.range (lo - hi + 1).toNat).map fun (k : Nat) => lo - k

/-- Of magnitude at most `2^53`. -/
def Admitted (endpoint : BitVec 64) : Prop :=
  -2 ^ 53 ≤ endpoint.toInt ∧ endpoint.toInt ≤ 2 ^ 53

/-! ### Numbers -/

namespace Num

theorem eq_intCast_of_den {value : Rat} (h : value.den = 1) : value = value.num := by
  rw [← Rat.num_div_den value, h]
  simp

/-- Whole numbers that pass the check come through the conversion. -/
theorem toInt_asI64 {value : Rat} (hwhole : value.den = 1) (hmax : |value| ≤ (maxExact : Rat)) :
    (asI64 (.finite value)).toInt = value.num ∧ -2 ^ 53 ≤ value.num ∧ value.num ≤ 2 ^ 53 := by
  have hvalue := eq_intCast_of_den hwhole
  have hbounds : -2 ^ 53 ≤ value.num ∧ value.num ≤ 2 ^ 53 := by
    rw [hvalue, abs_le, maxExact] at hmax
    have hlow : ((-2 ^ 53 : Int) : Rat) ≤ value.num := by simpa using hmax.1
    have hhigh : (value.num : Rat) ≤ ((2 ^ 53 : Int) : Rat) := by simpa using hmax.2
    exact ⟨Int.cast_le.mp hlow, Int.cast_le.mp hhigh⟩
  have hclamped : max (-2 ^ 63) (min (2 ^ 63 - 1) (value.num.tdiv value.den)) = value.num := by
    rw [hwhole, Int.natCast_one, Int.tdiv_one]
    omega
  refine ⟨?_, hbounds⟩
  rw [asI64, hclamped]
  exact BitVec.toInt_ofInt_eq_self (by decide) (by omega) (by omega)

/-- A double holds the whole numbers up to `2^53`. -/
theorem ofI64_eq {word : BitVec 64} (h : Admitted word) : ofI64 word = .finite word.toInt := by
  have hsmall : word.toInt.natAbs ≤ maxExact := by
    have hlow := h.1
    have hhigh := h.2
    rw [maxExact]
    omega
  rw [ofI64, roundMagnitude, if_pos hsmall]
  have hsign : ((word.toInt.sign * (word.toInt.natAbs : Int) : Int) : Rat) = word.toInt := by
    rw [Int.sign_mul_natAbs]
  rw [← hsign, Int.cast_mul, Int.cast_natCast]

end Num

theorem checkRangeEndpoint_ok {formatNum : Num → String} {value : Num} {endpoint : BitVec 64}
    (h : checkRangeEndpoint formatNum value = .ok endpoint) :
    Admitted endpoint ∧
      (value = .finite endpoint.toInt ∨ value = .negativeZero ∧ endpoint = 0#64) := by
  rw [checkRangeEndpoint] at h
  split at h
  case isTrue => cases h
  case isFalse hwhole =>
    split at h
    case isTrue => cases h
    case isFalse hsmall =>
      obtain rfl := Except.ok.inj h
      cases value with
      | finite value =>
        have hden : value.den = 1 := by simpa [Num.hasFraction, Num.isInfinite] using hwhole
        have hmax : |value| ≤ (Num.maxExact : Rat) := by simpa [Num.exceedsExact] using hsmall
        obtain ⟨htoInt, hlow, hhigh⟩ := Num.toInt_asI64 hden hmax
        refine ⟨⟨by rw [htoInt]; exact hlow, by rw [htoInt]; exact hhigh⟩, Or.inl ?_⟩
        rw [htoInt, ← Num.eq_intCast_of_den hden]
      | negativeZero => exact ⟨⟨by decide, by decide⟩, Or.inr ⟨rfl, rfl⟩⟩
      | infinite negative => exact absurd rfl hsmall
      | nan => exact absurd rfl hwhole

/-! ### Endpoints -/

section Endpoints

variable {V W φ : Type} {host : Host V W φ} {memory memory' : Memory V W} {stop : Expression}
  {span : Span} {endpoint : BitVec 64}

theorem generateExpression_literal {value : Num} (h : literalNumber host stop = some value) :
    generateExpression host stop memory = .ok (host.ofNum value, memory) := by
  revert h
  fun_cases literalNumber host stop with
  | case1 value span =>
    intro h
    obtain rfl := Option.some.inj h
    rfl
  | case2 value span span' =>
    intro h
    obtain rfl := Option.some.inj h
    rw [generateExpression, generateExpression]
    dsimp only [Except.bind]
    rw [host.floatValue_ofNum]
  | case3 => nofun

/-- A folded end is the one that evaluating and checking it would give. -/
theorem rangeEndpoint_eq :
    rangeEndpoint host stop span memory = evaluatedEndpoint host stop span memory := by
  rw [rangeEndpoint]
  split
  case h_2 => rfl
  case h_1 value hliteral =>
    split
    case h_2 => rfl
    case h_1 endpoint hcheck =>
      rw [evaluatedEndpoint, generateExpression_literal hliteral]
      dsimp only [Except.bind]
      rw [host.floatValue_ofNum]
      dsimp only
      rw [checkedEndpoint, hcheck]

/-- An end is a whole number a double holds. -/
theorem admitted_of_rangeEndpoint
    (h : rangeEndpoint host stop span memory = .ok (endpoint, memory')) : Admitted endpoint := by
  rw [rangeEndpoint_eq, evaluatedEndpoint] at h
  cases hvalue : generateExpression host stop memory with
  | error e =>
    rw [hvalue] at h
    cases h
  | ok result =>
    obtain ⟨value, later⟩ := result
    rw [hvalue] at h
    dsimp only [Except.bind] at h
    cases hfloat : host.floatValue value with
    | none =>
      rw [hfloat] at h
      cases h
    | some number =>
      rw [hfloat] at h
      dsimp only at h
      rw [checkedEndpoint] at h
      split at h
      case h_1 checked hcheck =>
        obtain ⟨rfl, -⟩ := Prod.mk.inj (Except.ok.inj h)
        exact (checkRangeEndpoint_ok hcheck).1
      case h_2 => cases h

end Endpoints

/-! ### Bounds -/

section Bounds

variable {lo hi : BitVec 64}

/-- Nothing that is computed between two admitted ends overflows. -/
structure NoOverflow (lo hi : BitVec 64) : Prop where
  delta : ¬ BitVec.ssubOverflow hi lo
  negation : ¬ BitVec.negOverflow (hi - lo)
  count : ¬ BitVec.saddOverflow (if lo.sle hi then hi - lo else -(hi - lo)) 1#64
  scaled : ∀ i : BitVec 64, 0 ≤ i.toInt → i.slt (boundsOf lo hi).count →
    ¬ BitVec.smulOverflow i (boundsOf lo hi).step
  sum : ∀ i : BitVec 64, 0 ≤ i.toInt → i.slt (boundsOf lo hi).count →
    ¬ BitVec.saddOverflow lo (i * (boundsOf lo hi).step)

theorem toInt_delta (hlo : Admitted lo) (hhi : Admitted hi) :
    ¬ BitVec.ssubOverflow hi lo ∧ (hi - lo).toInt = hi.toInt - lo.toInt := by
  have hfits : ¬ BitVec.ssubOverflow hi lo := by
    have hlow := hlo.1
    have hlow' := hlo.2
    have hhigh := hhi.1
    have hhigh' := hhi.2
    rw [BitVec.ssubOverflow]
    simp only [Nat.add_one_sub_one, ge_iff_le, Bool.or_eq_true, decide_eq_true_eq, not_or]
    omega
  exact ⟨hfits, BitVec.toInt_sub_of_not_ssubOverflow hfits⟩

theorem toInt_negDelta (hlo : Admitted lo) (hhi : Admitted hi) :
    ¬ BitVec.negOverflow (hi - lo) ∧ (-(hi - lo)).toInt = lo.toInt - hi.toInt := by
  obtain ⟨-, hdelta⟩ := toInt_delta hlo hhi
  have hfits : ¬ BitVec.negOverflow (hi - lo) := by
    have hlow := hlo.1
    have hlow' := hlo.2
    have hhigh := hhi.1
    have hhigh' := hhi.2
    rw [BitVec.negOverflow, hdelta]
    simp only [Nat.add_one_sub_one, beq_iff_eq]
    omega
  refine ⟨hfits, ?_⟩
  rw [BitVec.toInt_neg_of_not_negOverflow hfits, hdelta]
  omega

/-- The distance of the ends. -/
theorem toInt_span (hlo : Admitted lo) (hhi : Admitted hi) :
    (if lo.sle hi then hi - lo else -(hi - lo)).toInt =
      if lo.toInt ≤ hi.toInt then hi.toInt - lo.toInt else lo.toInt - hi.toInt := by
  by_cases hle : lo.toInt ≤ hi.toInt
  · rw [if_pos (BitVec.sle_iff_toInt_le.mpr hle), if_pos hle, (toInt_delta hlo hhi).2]
  · rw [if_neg (mt BitVec.sle_iff_toInt_le.mp hle), if_neg hle, (toInt_negDelta hlo hhi).2]

theorem length_wholeNumbers (lo hi : Int) : ((wholeNumbers lo hi).length : Int) =
    (if lo ≤ hi then hi - lo else lo - hi) + 1 := by
  rw [wholeNumbers]
  by_cases hle : lo ≤ hi
  · rw [if_pos hle, if_pos hle, List.length_map, List.length_range]
    omega
  · rw [if_neg hle, if_neg hle, List.length_map, List.length_range]
    omega

/-- There are as many elements as whole numbers between the ends. -/
theorem toInt_count (hlo : Admitted lo) (hhi : Admitted hi) :
    ¬ BitVec.saddOverflow (if lo.sle hi then hi - lo else -(hi - lo)) 1#64 ∧
      (boundsOf lo hi).count.toInt = (wholeNumbers lo.toInt hi.toInt).length := by
  have hspan := toInt_span hlo hhi
  have hone : (1#64).toInt = 1 := by decide
  have hlow := hlo.1
  have hlow' := hlo.2
  have hhigh := hhi.1
  have hhigh' := hhi.2
  have hfits : ¬ BitVec.saddOverflow (if lo.sle hi then hi - lo else -(hi - lo)) 1#64 := by
    rw [BitVec.saddOverflow, hspan, hone]
    simp only [Nat.add_one_sub_one, ge_iff_le, Bool.or_eq_true, decide_eq_true_eq, not_or]
    omega
  refine ⟨hfits, ?_⟩
  rw [boundsOf, length_wholeNumbers, BitVec.toInt_add_of_not_saddOverflow hfits, hspan, hone]

theorem toInt_step : (boundsOf lo hi).step.toInt = if lo.toInt ≤ hi.toInt then 1 else -1 := by
  rw [boundsOf]
  by_cases hle : lo.toInt ≤ hi.toInt
  · rw [if_pos (BitVec.sle_iff_toInt_le.mpr hle), if_pos hle]
    show (1#64).toInt = 1
    decide
  · rw [if_neg (mt BitVec.sle_iff_toInt_le.mp hle), if_neg hle]
    show (BitVec.allOnes 64).toInt = -1
    decide

/-- The place of an element is below `2^54 + 1`. -/
theorem toInt_place (hlo : Admitted lo) (hhi : Admitted hi) {i : BitVec 64}
    (h : i.slt (boundsOf lo hi).count) :
    i.toInt ≤ if lo.toInt ≤ hi.toInt then hi.toInt - lo.toInt else lo.toInt - hi.toInt := by
  rw [BitVec.slt_iff_toInt_lt, (toInt_count hlo hhi).2, length_wholeNumbers] at h
  omega

theorem toInt_scaled (hlo : Admitted lo) (hhi : Admitted hi) {i : BitVec 64} (hi0 : 0 ≤ i.toInt)
    (h : i.slt (boundsOf lo hi).count) :
    ¬ BitVec.smulOverflow i (boundsOf lo hi).step ∧
      (i * (boundsOf lo hi).step).toInt = if lo.toInt ≤ hi.toInt then i.toInt else -i.toInt := by
  have hplace := toInt_place hlo hhi h
  have hlow := hlo.1
  have hlow' := hlo.2
  have hhigh := hhi.1
  have hhigh' := hhi.2
  have hproduct : i.toInt * (boundsOf lo hi).step.toInt =
      if lo.toInt ≤ hi.toInt then i.toInt else -i.toInt := by
    rw [toInt_step]
    by_cases hle : lo.toInt ≤ hi.toInt
    · rw [if_pos hle, if_pos hle, Int.mul_one]
    · rw [if_neg hle, if_neg hle, Int.mul_neg_one]
  have hfits : ¬ BitVec.smulOverflow i (boundsOf lo hi).step := by
    rw [BitVec.smulOverflow, hproduct]
    simp only [Nat.add_one_sub_one, ge_iff_le, Bool.or_eq_true, decide_eq_true_eq, not_or]
    omega
  exact ⟨hfits, by rw [BitVec.toInt_mul_of_not_smulOverflow hfits, hproduct]⟩

/-- Element `i` stands `i` steps from the first end, and is admitted too. -/
theorem toInt_element (hlo : Admitted lo) (hhi : Admitted hi) {i : BitVec 64} (hi0 : 0 ≤ i.toInt)
    (h : i.slt (boundsOf lo hi).count) :
    ¬ BitVec.saddOverflow lo (i * (boundsOf lo hi).step) ∧
      (lo + i * (boundsOf lo hi).step).toInt =
          (if lo.toInt ≤ hi.toInt then lo.toInt + i.toInt else lo.toInt - i.toInt) ∧
        Admitted (lo + i * (boundsOf lo hi).step) := by
  have hplace := toInt_place hlo hhi h
  obtain ⟨-, hscaled⟩ := toInt_scaled hlo hhi hi0 h
  have hlow := hlo.1
  have hlow' := hlo.2
  have hhigh := hhi.1
  have hhigh' := hhi.2
  have hfits : ¬ BitVec.saddOverflow lo (i * (boundsOf lo hi).step) := by
    rw [BitVec.saddOverflow, hscaled]
    simp only [Nat.add_one_sub_one, ge_iff_le, Bool.or_eq_true, decide_eq_true_eq, not_or]
    omega
  have hsum : (lo + i * (boundsOf lo hi).step).toInt =
      if lo.toInt ≤ hi.toInt then lo.toInt + i.toInt else lo.toInt - i.toInt := by
    rw [BitVec.toInt_add_of_not_saddOverflow hfits, hscaled]
    omega
  refine ⟨hfits, hsum, ?_⟩
  rw [Admitted, hsum]
  omega

theorem boundsOf_noOverflow (hlo : Admitted lo) (hhi : Admitted hi) : NoOverflow lo hi where
  delta := (toInt_delta hlo hhi).1
  negation := (toInt_negDelta hlo hhi).1
  count := (toInt_count hlo hhi).1
  scaled _ hi0 h := (toInt_scaled hlo hhi hi0 h).1
  sum _ hi0 h := (toInt_element hlo hhi hi0 h).1

theorem getElem?_wholeNumbers {lo hi : Int} {k : Nat} (h : k < (wholeNumbers lo hi).length) :
    (wholeNumbers lo hi)[k]? = some (if lo ≤ hi then lo + k else lo - k) := by
  rw [wholeNumbers] at h ⊢
  by_cases hle : lo ≤ hi
  · rw [if_pos hle] at h ⊢
    rw [List.length_map, List.length_range] at h
    rw [if_pos hle, List.getElem?_map, List.getElem?_range h, Option.map_some]
  · rw [if_neg hle] at h ⊢
    rw [List.length_map, List.length_range] at h
    rw [if_neg hle, List.getElem?_map, List.getElem?_range h, Option.map_some]

/-- The elements of a range are the whole numbers between its ends, held exactly. -/
theorem rangeElement_eq {V W φ : Type} (host : Host V W φ) (hlo : Admitted lo) (hhi : Admitted hi)
    {k : Nat} {n : Int} (h : (wholeNumbers lo.toInt hi.toInt)[k]? = some n) :
    rangeElement host lo (boundsOf lo hi).step (BitVec.ofNat 64 k) =
      host.ofNum (.finite n) := by
  have hk : k < (wholeNumbers lo.toInt hi.toInt).length := (List.getElem?_eq_some_iff.mp h).1
  have hcount := (toInt_count hlo hhi).2
  have hmax : (boundsOf lo hi).count.toInt < 2 ^ 63 := BitVec.toInt_lt
  have hcounter : (BitVec.ofNat 64 k).toInt = k := by
    rw [BitVec.toInt_ofNat']
    exact Int.bmod_eq_of_le (by omega) (by omega)
  have hbelow : (BitVec.ofNat 64 k).slt (boundsOf lo hi).count := by
    rw [BitVec.slt_iff_toInt_lt, hcounter, hcount]
    exact Int.ofNat_lt.mpr hk
  obtain ⟨-, hsum, hadmitted⟩ := toInt_element hlo hhi (by omega) hbelow
  rw [getElem?_wholeNumbers hk] at h
  rw [rangeElement, Num.ofI64_eq hadmitted, hsum, hcounter, Option.some.inj h]

end Bounds

end Quilon.Ranges
