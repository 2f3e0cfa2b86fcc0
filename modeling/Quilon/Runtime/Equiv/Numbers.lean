import Mathlib.Tactic.Linarith
import Quilon.Codegen.Equiv.RangeBounds
import Quilon.Runtime.Equiv.Chunks
import Quilon.Runtime.Equiv.Streaming
import Quilon.Runtime.Numbers

/-!
# No number ends the process without a report

Every call answers every number, either by what was asked for (`Right`) or by its report
(`Documented`), and comes to an end, but one: `@sleep` of a time whose end no `Instant` holds
(`numbers_answered`).  The siblings of `__sleep` go through `bounded_duration`, which admits no such
time (`boundedDeadline_spec`).
-/

namespace Quilon.Ranges.Numbers

open Text Http Streaming

/-! ### Conversions -/

/-- The index a number lies above. -/
def IsIndex : Num → Nat → Prop
  | .finite value, k => (k : Rat) ≤ value ∧ value < k + 1
  | .negativeZero, k => k = 0
  | .infinite _, _ => False
  | .nan, _ => False

/-- A number is cut to an index, or lands on the same side of every text. -/
def Lands : Num → Int → Prop
  | .finite value, i =>
    i = Num.truncated value ∨ (addressSpace ≤ i ∧ (addressSpace : Rat) ≤ value) ∨
      (i < 0 ∧ value < 0)
  | .negativeZero, i => i = 0
  | .infinite negative, i => if negative then i < 0 else addressSpace ≤ i
  | .nan, i => i < 0

/-- The exit code of a number. -/
def exitCode : Num → Int
  | .finite value => max (-2 ^ 31) (min (2 ^ 31 - 1) (Num.truncated value))
  | .negativeZero => 0
  | .infinite negative => if negative then -2 ^ 31 else 2 ^ 31 - 1
  | .nan => -2 ^ 31

@[simp] theorem below_finite (bound value : Rat) :
    Num.below bound (.finite value) = decide (value < bound) := rfl

@[simp] theorem above_finite (bound value : Rat) :
    Num.above bound (.finite value) = decide (bound < value) := rfl

theorem truncated_of_nonneg {value : Rat} (h : 0 ≤ value) : Num.truncated value = ⌊value⌋ := by
  rw [Num.truncated, Int.tdiv_eq_ediv_of_nonneg (Rat.num_nonneg.mpr h), Rat.floor_def']

theorem truncated_neg (value : Rat) : Num.truncated (-value) = -Num.truncated value := by
  rw [Num.truncated, Num.truncated, Rat.num_neg_eq_neg_num, Rat.den_neg_eq_den, Int.neg_tdiv]

theorem truncated_of_neg {value : Rat} (h : value < 0) : Num.truncated value = ⌈value⌉ := by
  have hpos : 0 ≤ -value := by linarith
  have hneg := truncated_of_nonneg hpos
  rw [truncated_neg, Int.floor_neg] at hneg
  omega

/-- Truncation keeps whole bounds on either side of zero. -/
theorem truncated_le {value : Rat} {bound : Int} (hbound : 0 ≤ bound) (h : value ≤ bound) :
    Num.truncated value ≤ bound := by
  by_cases hneg : value < 0
  · rw [truncated_of_neg hneg]
    exact Int.ceil_le.mpr h
  · rw [truncated_of_nonneg (not_lt.mp hneg)]
    exact Int.cast_le.mp (le_trans (Int.floor_le value) h)

theorem le_truncated {value : Rat} {bound : Int} (hbound : bound ≤ 0) (h : (bound : Rat) ≤ value) :
    bound ≤ Num.truncated value := by
  have hupper : -value ≤ ((-bound : Int) : Rat) := by
    rw [Int.cast_neg]
    linarith
  have hle := truncated_le (by omega : 0 ≤ -bound) hupper
  rw [truncated_neg] at hle
  omega

@[simp] theorem truncated_intCast (n : Int) : Num.truncated (n : Rat) = n := by
  rw [Num.truncated, Rat.num_intCast, Rat.den_intCast, Int.natCast_one, Int.tdiv_one]

theorem fptosi_finite {bits : Nat} {value : Rat} (hlow : -2 ^ (bits - 1) ≤ Num.truncated value)
    (hhigh : Num.truncated value < 2 ^ (bits - 1)) :
    Num.fptosi bits (.finite value) = some (Num.truncated value) := if_pos ⟨hlow, hhigh⟩

/-- What a clamp between whole bounds around zero leaves fits. -/
theorem saturatingInt_spec {bits : Nat} {low high : Int} (hlow : -2 ^ (bits - 1) ≤ low)
    (hlow0 : low ≤ 0) (hhigh0 : 0 ≤ high) (hhigh : high < 2 ^ (bits - 1)) (x : Num) :
    Num.saturatingInt bits low high x = some (match x with
      | .finite value =>
        if value < low then low else if (high : Rat) < value then high else Num.truncated value
      | .negativeZero => 0
      | .infinite negative => if negative then low else high
      | .nan => low) := by
  have hlowFits : Num.fptosi bits (.finite low) = some low := by
    rw [fptosi_finite] <;> rw [truncated_intCast] <;> omega
  have hhighFits : Num.fptosi bits (.finite high) = some high := by
    rw [fptosi_finite] <;> rw [truncated_intCast] <;> omega
  have hlow0' : ¬ (0 : Rat) < low := not_lt.mpr (Int.cast_nonpos.mpr hlow0)
  have hhigh0' : ¬ (high : Rat) < 0 := not_lt.mpr (Int.cast_nonneg hhigh0)
  cases x with
  | finite value =>
    by_cases hbelow : value < low
    · simp [Num.saturatingInt, Num.below, hbelow, hlowFits]
    · by_cases habove : (high : Rat) < value
      · simp [Num.saturatingInt, Num.below, Num.above, hbelow, habove, hhighFits]
      · have hfits : Num.fptosi bits (.finite value) = some (Num.truncated value) := by
          have hle := truncated_le hhigh0 (not_lt.mp habove)
          have hge := le_truncated hlow0 (not_lt.mp hbelow)
          exact fptosi_finite (by omega) (by omega)
        simp [Num.saturatingInt, Num.below, Num.above, hbelow, habove, hfits]
  | negativeZero =>
    simp [Num.saturatingInt, Num.below, Num.above, hlow0', hhigh0', Num.fptosi]
  | infinite negative =>
    cases negative <;> simp [Num.saturatingInt, Num.below, Num.above, hlowFits, hhighFits]
  | nan => simp [Num.saturatingInt, hlowFits]

theorem saturatingI64_lands (x : Num) : ∃ i, x.saturatingI64 = some i ∧ Lands x i := by
  have hspec := @saturatingInt_spec 64 (-2 ^ 63) 9223372036854774784 (by decide) (by decide)
    (by decide) (by decide) x
  rw [show ((-2 ^ 63 : Int) : Rat) = -2 ^ 63 by norm_num,
    show ((9223372036854774784 : Int) : Rat) = 9223372036854774784 by norm_num] at hspec
  refine ⟨_, hspec, ?_⟩
  cases x with
  | finite value =>
    dsimp only
    by_cases hbelow : value < -2 ^ 63
    · rw [if_pos hbelow]
      have hneg : value < 0 := lt_trans hbelow (by norm_num)
      exact .inr (.inr ⟨by decide, hneg⟩)
    · rw [if_neg hbelow]
      by_cases habove : 9223372036854774784 < value
      · rw [if_pos habove]
        have hfar : (addressSpace : Rat) ≤ value := le_trans (by norm_num [addressSpace]) habove.le
        exact .inr (.inl ⟨by decide, hfar⟩)
      · rw [if_neg habove]
        exact .inl rfl
  | negativeZero => rfl
  | infinite negative =>
    cases negative with
    | false => exact (by decide : (addressSpace : Int) ≤ 9223372036854774784)
    | true => exact (by decide : (-2 ^ 63 : Int) < 0)
  | nan => exact (by decide : (-2 ^ 63 : Int) < 0)

theorem saturatingI32_eq (x : Num) : x.saturatingI32 = some (exitCode x) := by
  have hspec := @saturatingInt_spec 32 (-2 ^ 31) (2 ^ 31 - 1) (by decide) (by decide)
    (by decide) (by decide) x
  rw [show ((-2 ^ 31 : Int) : Rat) = -2 ^ 31 by norm_num,
    show ((2 ^ 31 - 1 : Int) : Rat) = 2 ^ 31 - 1 by norm_num] at hspec
  rw [Num.saturatingI32, hspec]
  cases x with
  | finite value =>
    dsimp only [exitCode]
    by_cases hbelow : value < -2 ^ 31
    · have hle : Num.truncated value ≤ -2 ^ 31 := by
        rw [truncated_of_neg (lt_trans hbelow (by norm_num))]
        exact Int.ceil_le.mpr (by push_cast; exact hbelow.le)
      rw [if_pos hbelow]
      exact congrArg some (by omega)
    · rw [if_neg hbelow]
      by_cases habove : 2 ^ 31 - 1 < value
      · have hge : 2 ^ 31 - 1 ≤ Num.truncated value := by
          rw [truncated_of_nonneg (le_trans (by norm_num) habove.le)]
          exact Int.le_floor.mpr (by push_cast; linarith)
        rw [if_pos habove]
        exact congrArg some (by omega)
      · have hle : Num.truncated value ≤ 2 ^ 31 - 1 :=
          truncated_le (by decide) (by push_cast; linarith)
        have hge : -2 ^ 31 ≤ Num.truncated value :=
          le_truncated (by decide) (by push_cast; exact not_lt.mp hbelow)
        rw [if_neg habove]
        exact congrArg some (by omega)
  | negativeZero => rfl
  | infinite negative => cases negative <;> rfl
  | nan => rfl

/-! ### Times -/

/-- The clock shows `deadline` when so many seconds have passed, to the nanosecond. -/
def Waits (now deadline : Nat) (seconds : Rat) : Prop :=
  |(deadline : Rat) - now - seconds * nanosPerSec| ≤ 1 / 2

/-- The seconds `@sleep` is to pause for, where that is a number. -/
def askedSeconds : Num → Rat
  | .finite value => max 0 value
  | _ => 0

/-- NaN is no wait, and no wait is longer than `maxDeadlineSeconds`. -/
def boundedSeconds : Num → Rat
  | .finite value => max 0 (min value maxDeadlineSeconds)
  | .negativeZero => 0
  | .infinite negative => if negative then 0 else maxDeadlineSeconds
  | .nan => 0

theorem roundEven_near (x : Rat) : |(roundEven x : Rat) - x| ≤ 1 / 2 := by
  have hfloor := Int.floor_le x
  have hlt := Int.lt_floor_add_one x
  rw [roundEven]
  split
  case isTrue hdown =>
    have hhalf : x - ⌊x⌋ ≤ 1 / 2 := hdown.elim le_of_lt fun h => h.1.le
    rw [abs_le]
    constructor <;> linarith
  case isFalse hup =>
    have hhalf : 1 / 2 ≤ x - ⌊x⌋ := not_lt.mp fun h => hup (.inl h)
    rw [abs_le]
    push_cast
    constructor <;> linarith

theorem roundEven_zero : roundEven 0 = 0 := by
  simp [roundEven]

theorem roundEven_nonneg {x : Rat} (h : 0 ≤ x) : 0 ≤ roundEven x := by
  have hfloor : 0 ≤ ⌊x⌋ := Int.floor_nonneg.mpr h
  rw [roundEven]
  split <;> omega

theorem toNat_roundEven_near {x : Rat} (h : 0 ≤ x) : |((roundEven x).toNat : Rat) - x| ≤ 1 / 2 := by
  have hcast : ((roundEven x).toNat : Rat) = (roundEven x : Rat) := by
    rw [← Int.cast_natCast, Int.toNat_of_nonneg (roundEven_nonneg h)]
  rw [hcast]
  exact roundEven_near x

theorem le_of_near {n bound : Nat} {x : Rat} (h : |(n : Rat) - x| ≤ 1 / 2) (hx : x ≤ bound) :
    n ≤ bound := by
  have hle := (abs_le.mp h).2
  have hlt : (n : Rat) < ((bound + 1 : Nat) : Rat) := by
    push_cast
    linarith
  exact Nat.lt_succ_iff.mp (Nat.cast_lt.mp hlt)

/-- What is at most `maxDeadlineSeconds` is a `Duration`. -/
theorem fromSecsF64_spec {value : Rat} (h : 0 ≤ value) (hmax : value ≤ maxDeadlineSeconds) :
    ∃ n, fromSecsF64 (.finite value) = some n ∧ |(n : Rat) - value * nanosPerSec| ≤ 1 / 2 ∧
      n ≤ 10 ^ 18 := by
  have hnanos : 0 ≤ value * nanosPerSec := mul_nonneg h (Nat.cast_nonneg _)
  have hnear := toNat_roundEven_near hnanos
  have hbound : value * nanosPerSec ≤ ((10 ^ 18 : Nat) : Rat) := by
    have hscaled := mul_le_mul_of_nonneg_right hmax (Nat.cast_nonneg nanosPerSec)
    exact le_trans hscaled (by norm_num [maxDeadlineSeconds, nanosPerSec])
  have hle := le_of_near hnear hbound
  have hfits : (roundEven (value * nanosPerSec)).toNat < 2 ^ 64 * nanosPerSec :=
    lt_of_le_of_lt hle (by decide)
  refine ⟨_, ?_, hnear, hle⟩
  rw [fromSecsF64, if_neg (not_lt.mpr h), if_pos hfits]

theorem maxDeadlineSeconds_nonneg : 0 ≤ maxDeadlineSeconds := by norm_num [maxDeadlineSeconds]

theorem boundedSeconds_le (seconds : Num) :
    0 ≤ boundedSeconds seconds ∧ boundedSeconds seconds ≤ maxDeadlineSeconds := by
  have hmax := maxDeadlineSeconds_nonneg
  cases seconds with
  | finite value => exact ⟨le_max_left _ _, max_le hmax (min_le_right _ _)⟩
  | negativeZero => exact ⟨le_rfl, hmax⟩
  | infinite negative =>
    cases negative with
    | false => exact ⟨hmax, le_rfl⟩
    | true => exact ⟨le_rfl, hmax⟩
  | nan => exact ⟨le_rfl, hmax⟩

/-- What is left is the bounded time, or a zero. -/
theorem bounded_eq (seconds : Num) : bounded seconds = .finite (boundedSeconds seconds) ∨
    bounded seconds = .negativeZero ∧ boundedSeconds seconds = 0 := by
  have hmax := maxDeadlineSeconds_nonneg
  cases seconds with
  | finite value =>
    refine .inl ?_
    rw [bounded, boundedSeconds, Num.clampTo, below_finite, above_finite]
    by_cases hneg : value < 0
    · rw [max_eq_left (le_trans (min_le_left _ _) hneg.le), if_pos (decide_eq_true hneg)]
    · by_cases hover : maxDeadlineSeconds < value
      · rw [min_eq_right hover.le, max_eq_right hmax, if_neg (mt of_decide_eq_true hneg),
          if_pos (decide_eq_true hover)]
      · rw [min_eq_left (not_lt.mp hover), max_eq_right (not_lt.mp hneg),
          if_neg (mt of_decide_eq_true hneg), if_neg (mt of_decide_eq_true hover)]
  | negativeZero =>
    refine .inr ⟨?_, rfl⟩
    simp [bounded, Num.clampTo, Num.below, Num.above, hmax]
  | infinite negative => cases negative <;> exact .inl rfl
  | nan => exact .inl rfl

theorem boundedDuration_spec (seconds : Num) : ∃ n, boundedDuration seconds = some n ∧
    |(n : Rat) - boundedSeconds seconds * nanosPerSec| ≤ 1 / 2 ∧ n ≤ 10 ^ 18 := by
  obtain ⟨hnonneg, hle⟩ := boundedSeconds_le seconds
  rw [boundedDuration]
  rcases bounded_eq seconds with hfinite | ⟨hzero, hseconds⟩
  · rw [hfinite]
    exact fromSecsF64_spec hnonneg hle
  · rw [hzero, hseconds]
    exact ⟨0, rfl, by norm_num, Nat.zero_le _⟩

variable {now : Nat}

/-- A deadline through `bounded_duration` is one an `Instant` holds. -/
theorem boundedDeadline_spec (hyoung : now < 2 ^ 60 * nanosPerSec) (seconds : Num) :
    ∃ deadline, boundedDeadline now seconds = some deadline ∧
      Waits now deadline (boundedSeconds seconds) ∧ deadline < 2 ^ 61 * nanosPerSec := by
  obtain ⟨n, hduration, hnear, hle⟩ := boundedDuration_spec seconds
  have hearly : now + n < 2 ^ 61 * nanosPerSec := by
    rw [nanosPerSec] at hyoung ⊢
    omega
  have hfits : now + n < 2 ^ 63 * nanosPerSec := lt_trans hearly (by decide)
  refine ⟨now + n, ?_, ?_, hearly⟩
  · rw [boundedDeadline, hduration, Option.bind_some, after, if_pos hfits]
  · rw [Waits, Nat.cast_add, add_sub_cancel_left]
    exact hnear

/-! #### `@sleep` -/

/-- The end of the pause is not one an `Instant` holds. -/
def SleepsTooLong (now : Nat) : Num → Prop
  | .finite value =>
    2 ^ 63 * nanosPerSec ≤ now + (roundEven (max 0 value * nanosPerSec)).toNat
  | .negativeZero => False
  | .infinite negative => negative = false
  | .nan => False

theorem fromSecsF64_max0 (value : Rat) : fromSecsF64 (Num.max0 (.finite value)) =
    if (roundEven (max 0 value * nanosPerSec)).toNat < 2 ^ 64 * nanosPerSec then
      some (roundEven (max 0 value * nanosPerSec)).toNat
    else none := by
  by_cases hneg : value < 0
  · have hmax0 : Num.max0 (.finite value) = .finite 0 := by simp [Num.max0, Num.below, hneg]
    rw [hmax0, max_eq_left hneg.le, fromSecsF64, if_neg (lt_irrefl 0)]
  · have hmax0 : Num.max0 (.finite value) = .finite value := by simp [Num.max0, Num.below, hneg]
    rw [hmax0, max_eq_right (not_lt.mp hneg), fromSecsF64, if_neg hneg]

theorem after_zero (hyoung : now < 2 ^ 60 * nanosPerSec) : after now 0 = some now :=
  if_pos (lt_trans hyoung (by decide))

theorem waits_self (now : Nat) : Waits now now 0 := by
  norm_num [Waits]

theorem sleepSeconds_spec (hyoung : now < 2 ^ 60 * nanosPerSec) {seconds : Num}
    (h : ¬ SleepsTooLong now seconds) : ∃ deadline, sleepSeconds now seconds = some deadline ∧
      Waits now deadline (askedSeconds seconds) := by
  have hzero : fromSecsF64 (.finite 0) = some 0 := by
    rw [fromSecsF64, if_neg (lt_irrefl 0), zero_mul, roundEven_zero]
    rfl
  cases seconds with
  | finite value =>
    have hfits : now + (roundEven (max 0 value * nanosPerSec)).toNat < 2 ^ 63 * nanosPerSec :=
      not_le.mp h
    have hduration : (roundEven (max 0 value * nanosPerSec)).toNat < 2 ^ 64 * nanosPerSec :=
      lt_of_le_of_lt (Nat.le_add_left _ now) (lt_trans hfits (by decide))
    refine ⟨now + (roundEven (max 0 value * nanosPerSec)).toNat, ?_, ?_⟩
    · rw [sleepSeconds, fromSecsF64_max0, if_pos hduration, Option.bind_some, sleep, after,
        if_pos hfits]
    · rw [Waits, Nat.cast_add, add_sub_cancel_left]
      exact toNat_roundEven_near (mul_nonneg (le_max_left 0 value) (Nat.cast_nonneg _))
  | negativeZero => exact ⟨now, after_zero hyoung, waits_self now⟩
  | infinite negative =>
    cases negative with
    | false => exact absurd rfl h
    | true =>
      refine ⟨now, ?_, waits_self now⟩
      rw [sleepSeconds, show Num.max0 (.infinite true) = .finite 0 from rfl, hzero,
        Option.bind_some]
      exact after_zero hyoung
  | nan =>
    refine ⟨now, ?_, waits_self now⟩
    rw [sleepSeconds, show Num.max0 .nan = .finite 0 from rfl, hzero, Option.bind_some]
    exact after_zero hyoung

theorem sleepSeconds_tooLong {seconds : Num} (h : SleepsTooLong now seconds) :
    sleepSeconds now seconds = none := by
  cases seconds with
  | finite value =>
    rw [sleepSeconds, fromSecsF64_max0]
    split
    · exact if_neg (not_lt.mpr h)
    · rfl
  | negativeZero => exact absurd h not_false
  | infinite negative =>
    obtain rfl : negative = false := h
    rfl
  | nan => exact absurd h not_false

/-! #### The wait of `Server.kill` -/

variable {wait : Wait} {floor deadline : Nat}

theorem le_looked (wait : Wait) (k : Nat) : k * tick ≤ wait.looked k := by
  induction k with
  | zero => rw [Nat.zero_mul]; exact Nat.zero_le _
  | succ k ih =>
    have hparked := wait.looked_le k
    have hwoken := wait.woken k
    rw [Nat.succ_mul]
    omega

/-- The wait goes on past turn `k`. -/
def Waiting (wait : Wait) (floor deadline k : Nat) : Prop :=
  floor < wait.inFlight k ∧ wait.looked k < deadline

instance : Decidable (Waiting wait floor deadline k) := inferInstanceAs (Decidable (_ ∧ _))

/-- The loop ends with the first turn it has not to wait behind; the end of every sleep before that
is one an `Instant` holds. -/
theorem waitTurns_spec (hdeadline : deadline < 2 ^ 61 * nanosPerSec) {first turns k : Nat}
    (hwaiting : ∀ j < k, Waiting wait floor deadline j)
    (hfirst : ¬ Waiting wait floor deadline first)
    (hbefore : ∀ j < first, Waiting wait floor deadline j) (hturns : first < k + turns)
    (hk : k ≤ first) :
    waitTurns wait floor deadline turns k = some first := by
  induction turns generalizing k with
  | zero => omega
  | succ turns ih =>
    rw [waitTurns]
    by_cases hgo : Waiting wait floor deadline k
    · have hparked := wait.prompt k (lt_trans hgo.2 hdeadline)
      have hfits : wait.parked k + tick < 2 ^ 63 * nanosPerSec := by
        rw [nanosPerSec] at hparked ⊢
        rw [tick]
        omega
      have hne : k ≠ first := fun heq => hfirst (heq ▸ hgo)
      have hsleep : sleep (wait.parked k) tick = some (wait.parked k + tick) := by
        rw [sleep, after, if_pos hfits]
      rw [if_pos (show floor < wait.inFlight k ∧ wait.looked k < deadline from hgo), hsleep,
        Option.bind_some]
      exact ih (fun j hj => (Nat.lt_succ_iff_lt_or_eq.mp hj).elim (hwaiting j) fun heq => heq ▸ hgo)
        (by omega) (by omega)
    · have heq : k = first := le_antisymm hk (not_lt.mp fun hlt => hgo (hbefore k hlt))
      rw [if_neg (show ¬ (floor < wait.inFlight k ∧ wait.looked k < deadline) from hgo), heq]

theorem exists_first (wait : Wait) (floor deadline : Nat) : ∃ first,
    ¬ Waiting wait floor deadline first ∧ ∀ j < first, Waiting wait floor deadline j := by
  have hends : ∃ k, ¬ Waiting wait floor deadline k := by
    refine ⟨deadline, fun hgo => ?_⟩
    have hle := le_looked wait deadline
    have htick : deadline ≤ deadline * tick := Nat.le_mul_of_pos_right _ (by decide)
    have hlt := hgo.2
    omega
  exact ⟨Nat.find hends, Nat.find_spec hends, fun j hj => not_not.mp (Nat.find_min hends hj)⟩

theorem waitForInFlight_spec (hyoung : now < 2 ^ 60 * nanosPerSec) (wait : Wait) (floor : Nat)
    (seconds : Num) : ∃ deadline first, Waits now deadline (boundedSeconds seconds) ∧
      ¬ Waiting wait floor deadline first ∧ (∀ j < first, Waiting wait floor deadline j) ∧
      ∀ turns, first + 1 ≤ turns → waitForInFlight wait floor now seconds turns = some first := by
  obtain ⟨deadline, hdeadline, hwaits, hearly⟩ := boundedDeadline_spec hyoung seconds
  obtain ⟨first, hfirst, hbefore⟩ := exists_first wait floor deadline
  refine ⟨deadline, first, hwaits, hfirst, hbefore, fun turns hturns => ?_⟩
  rw [waitForInFlight, hdeadline, Option.bind_some]
  exact waitTurns_spec hearly (by omega) hfirst hbefore (by omega) (Nat.zero_le _)

/-! ### Memory -/

variable {ρ ρ' : Type} {machine : Machine} {text : QnSlice}

/-- The report of a block there is no room for. -/
def OutOfMemory (machine : Machine) (code : Option Nat) (message : String) : Prop :=
  ∃ bytes, machine.grants bytes = false ∧ code = none ∧
    message = "out of memory: cannot allocate " ++ toString bytes ++ " bytes\n"

/-- A result as it should be, unless there is no room for it. -/
def Gives (machine : Machine) (good : ρ → Prop) : Outcome ρ → Prop
  | .performed result => good result
  | .reported code message => OutOfMemory machine code message
  | .lost => False

theorem Gives.bind {good : ρ → Prop} {good' : ρ' → Prop} {outcome : Outcome ρ}
    {next : ρ → Outcome ρ'} (h : Gives machine good outcome)
    (hnext : ∀ result, good result → Gives machine good' (next result)) :
    Gives machine good' (outcome.bind next) := by
  cases outcome with
  | performed result => exact hnext result h
  | reported code message => exact h
  | lost => exact h

theorem alloc_gives {size : Int} (h : 0 ≤ size) :
    Gives machine (fun _ => size < addressSpace) (alloc machine size) := by
  rw [alloc, if_neg (not_lt.mpr h)]
  by_cases hgrants : machine.grants (max 1 size.toNat) = true
  · rw [if_pos hgrants]
    have hlt := machine.grants_lt _ hgrants
    show size < addressSpace
    omega
  · rw [if_neg hgrants]
    exact ⟨_, (Bool.not_eq_true _).mp hgrants, rfl, rfl⟩

theorem allocArray_gives {count elemSize : Int} (hcount : 0 ≤ count) (helemSize : 0 ≤ elemSize)
    (hfits : count * elemSize < 2 ^ 63) :
    Gives machine (fun _ => True) (allocArray machine count elemSize) := by
  have hsize := @alloc_gives machine _ (mul_nonneg hcount helemSize)
  rw [allocArray, if_neg (by omega), if_pos hfits]
  cases halloc : alloc machine (count * elemSize) with
  | performed => trivial
  | reported code message => rw [halloc] at hsize; exact hsize
  | lost => rw [halloc] at hsize; exact hsize

theorem addI64_eq {a b : Nat} (h : a + b < 2 ^ 63) : addI64 a b = some (a + b) := if_pos h

/-- No sum of `__text_concat` wraps. -/
theorem concat_gives {left right : QnSlice} (hleft : left.content.length < addressSpace)
    (hright : right.content.length < addressSpace) :
    Gives machine (fun joined => joined.content = left.content ++ right.content ∧
      joined.content.length < addressSpace) (concat machine left right) := by
  have htotal : left.content.length + right.content.length < 2 ^ 63 := by
    rw [addressSpace] at hleft hright
    omega
  rw [concat, addI64_eq htotal]
  dsimp only [Outcome.ofOption, Outcome.bind]
  by_cases hempty : left.content.length + right.content.length = 0
  · have hnil : left.content ++ right.content = [] := by
      rw [← List.length_eq_zero_iff, List.length_append, hempty]
    rw [if_pos hempty]
    exact ⟨hnil.symm, by decide⟩
  · have hbytes : textBufferBytes (left.content.length + right.content.length) =
        some (textHeaderBytes + (left.content.length + right.content.length) + 1) := by
      rw [addressSpace] at hleft hright
      rw [textBufferBytes, addI64_eq (by rw [textHeaderBytes]; omega), Option.bind_some,
        addI64_eq (by rw [textHeaderBytes]; omega)]
    rw [if_neg hempty, hbytes]
    refine (alloc_gives (Int.natCast_nonneg _)).bind fun _ hroom => ?_
    refine ⟨content_textConcat _ _ _, ?_⟩
    rw [content_textConcat, List.length_append]
    omega

/-! ### `repeat` -/

/-- The whole number, 0 or more, that a count is. -/
def IsCount : Num → Nat → Prop
  | .finite value, n => value = n
  | .negativeZero, n => n = 0
  | .infinite _, _ => False
  | .nan, _ => False

theorem rem2_natCast (n : Nat) : rem2 n = ((n % 2 : Nat) : Rat) := by
  have hhalf : ⌊(n : Rat) / 2⌋ = ((n / 2 : Nat) : Int) := by
    have hfloor := Rat.floor_intCast_div_natCast (n : Int) 2
    push_cast at hfloor ⊢
    exact hfloor
  have hnonneg : (0 : Rat) ≤ n / 2 := div_nonneg (Nat.cast_nonneg n) (by norm_num)
  have hsplit : (n : Rat) = ((2 * (n / 2) + n % 2 : Nat) : Rat) :=
    congrArg Nat.cast (Nat.div_add_mod n 2).symm
  rw [rem2, truncated_of_nonneg hnonneg, hhalf, Int.cast_natCast]
  rw [Nat.cast_add, Nat.cast_mul] at hsplit
  linarith

/-- Halving and taking one away come down to zero within as many turns as the count has units. -/
theorem copies_gives (htext : text.content.length < addressSpace) {n turns : Nat}
    (hturns : n < turns) :
    Gives machine (fun copied => copied.content = (List.replicate n text.content).flatten ∧
      copied.content.length < addressSpace) (copies machine text turns n) := by
  induction n using Nat.strong_induction_on generalizing turns with
  | _ n ih =>
    obtain ⟨turns, rfl⟩ := Nat.exists_eq_succ_of_ne_zero (Nat.ne_zero_of_lt hturns)
    rw [copies, rem2_natCast]
    by_cases hzero : n = 0
    · subst hzero
      rw [if_pos Nat.cast_zero]
      exact ⟨rfl, by decide⟩
    · rw [if_neg (Nat.cast_ne_zero.mpr hzero)]
      by_cases hodd : n % 2 = 1
      · have hpred : (n : Rat) - 1 = ((n - 1 : Nat) : Rat) := by
          rw [Nat.cast_sub (Nat.one_le_iff_ne_zero.mpr hzero), Nat.cast_one]
        rw [if_pos (by rw [hodd, Nat.cast_one]), hpred]
        refine (ih (n - 1) (by omega) (by omega)).bind fun rest ⟨hrest, hlength⟩ => ?_
        have hjoined : text.content ++ rest.content = (List.replicate n text.content).flatten := by
          rw [hrest, ← List.flatten_cons, ← List.replicate_succ, Nat.sub_one_add_one hzero]
        rw [← hjoined]
        exact concat_gives htext hlength
      · have hhalf : (n : Rat) / 2 = ((n / 2 : Nat) : Rat) := by
          have hsplit : (n : Rat) = ((2 * (n / 2) : Nat) : Rat) := congrArg Nat.cast (by omega)
          push_cast at hsplit ⊢
          linarith
        rw [if_neg (fun h => hodd (Nat.cast_eq_one.mp h)), hhalf]
        refine (ih (n / 2) (by omega) (by omega)).bind fun half ⟨hcontent, hlength⟩ => ?_
        have hjoined : half.content ++ half.content = (List.replicate n text.content).flatten := by
          rw [hcontent, ← List.flatten_append, List.replicate_append_replicate]
          exact congrArg (fun k => (List.replicate k text.content).flatten) (by omega)
        rw [← hjoined]
        exact concat_gives hlength hlength

theorem repeat_spec (htext : text.content.length < addressSpace) (count : Num) :
    (∃ n, IsCount count n ∧ ∀ turns, n < turns →
      Gives machine (fun copied => copied.content = (List.replicate n text.content).flatten)
        (repeat_ machine text count turns)) ∨
      (∀ n, ¬ IsCount count n) ∧ ∀ turns, repeat_ machine text count turns = repeatRefused := by
  have hcopies : ∀ {n turns : Nat}, n < turns →
      Gives machine (fun copied => copied.content = (List.replicate n text.content).flatten)
        (copies machine text turns n) := by
    intro n turns hturns
    have hgives := @copies_gives machine text htext n turns hturns
    cases hcopied : copies machine text turns n with
    | performed copied => rw [hcopied] at hgives; exact hgives.1
    | reported code message => rw [hcopied] at hgives; exact hgives
    | lost => rw [hcopied] at hgives; exact hgives
  cases count with
  | finite value =>
    by_cases hvalid : 0 ≤ value ∧ (Num.finite value).hasFraction = false
    · have hden : value.den = 1 := by simpa [Num.hasFraction] using hvalid.2
      have hvalue : value = (value.num.toNat : Rat) := by
        have hnum := Num.eq_intCast_of_den hden
        have hcast : (value.num.toNat : Int) = value.num :=
          Int.toNat_of_nonneg (Rat.num_nonneg.mpr hvalid.1)
        rw [← Int.cast_natCast, hcast]
        exact hnum
      refine .inl ⟨value.num.toNat, hvalue, fun turns hturns => ?_⟩
      rw [repeat_, if_pos hvalid]
      nth_rewrite 2 [hvalue]
      exact hcopies hturns
    · refine .inr ⟨fun n hn => hvalid ?_, fun turns => if_neg hvalid⟩
      obtain rfl : value = n := hn
      exact ⟨Nat.cast_nonneg n, by simp [Num.hasFraction]⟩
  | negativeZero =>
    refine .inl ⟨0, rfl, fun turns hturns => ?_⟩
    have hgives := hcopies hturns
    rw [Nat.cast_zero] at hgives
    exact hgives
  | infinite negative => exact .inr ⟨fun _ h => h, fun _ => rfl⟩
  | nan => exact .inr ⟨fun _ h => h, fun _ => rfl⟩

/-! ### Indices -/

variable {α σ : Type} {array : List α}

theorem ofI64_size {size : Nat} (h : size < addressSpace) :
    Num.ofI64 (BitVec.ofNat 64 size) = .finite size := by
  rw [addressSpace] at h
  have htoInt : (BitVec.ofNat 64 size).toInt = size := by
    have htoNat : (BitVec.ofNat 64 size).toNat = size := by
      rw [BitVec.toNat_ofNat]
      exact Nat.mod_eq_of_lt (by omega)
    rw [BitVec.toInt_eq_toNat_of_lt (by omega), htoNat]
  rw [Num.ofI64_eq ⟨by rw [htoInt]; omega, by rw [htoInt]; omega⟩, htoInt, Int.cast_natCast]

/-- The indices that pass are those of an element. -/
theorem indexInBounds_iff {size : Nat} (h : size < addressSpace) (index : Num) :
    indexInBounds index size = true ↔ ∃ k < size, IsIndex index k := by
  rw [indexInBounds, ofI64_size h]
  dsimp only
  cases index with
  | finite value =>
    constructor
    · intro hpasses
      obtain ⟨hnonneg, hlt⟩ : 0 ≤ value ∧ value < size := by simpa using hpasses
      refine ⟨⌊value⌋.toNat, ?_, ?_⟩
      · have hfloor : ⌊value⌋ < size := Int.floor_lt.mpr (by rw [Int.cast_natCast]; exact hlt)
        have hfloor0 : 0 ≤ ⌊value⌋ := Int.floor_nonneg.mpr hnonneg
        omega
      · have hcast : ((⌊value⌋.toNat : Nat) : Rat) = (⌊value⌋ : Rat) := by
          rw [← Int.cast_natCast, Int.toNat_of_nonneg (Int.floor_nonneg.mpr hnonneg)]
        rw [IsIndex, hcast]
        exact ⟨Int.floor_le value, Int.lt_floor_add_one value⟩
    · rintro ⟨k, hk, hle, hlt⟩
      have hnonneg : 0 ≤ value := le_trans (Nat.cast_nonneg k) hle
      have hsize : value < size := lt_of_lt_of_le hlt (by exact_mod_cast hk)
      simp [hnonneg, hsize]
  | negativeZero =>
    constructor
    · intro hpasses
      have hpos : 0 < size := by simpa [Num.below] using hpasses
      exact ⟨0, hpos, rfl⟩
    · rintro ⟨k, hk, rfl⟩
      simp [Num.below, hk]
  | infinite negative => cases negative <;> simp [Num.below, IsIndex]
  | nan => simp [IsIndex]

/-- The conversion of such an index is its place. -/
theorem elementAt_eq (harray : array.length < addressSpace) {index : Num} {k : Nat}
    (hindex : IsIndex index k) (hk : k < array.length) : elementAt array index = array[k]? := by
  have hfptosi : index.fptosi 64 = some (k : Int) := by
    cases index with
    | finite value =>
      obtain ⟨hle, hlt⟩ : (k : Rat) ≤ value ∧ value < k + 1 := hindex
      have hnonneg : 0 ≤ value := le_trans (Nat.cast_nonneg k) hle
      have hwhole : Num.truncated value = k := by
        rw [truncated_of_nonneg hnonneg]
        exact Int.floor_eq_iff.mpr ⟨by exact_mod_cast hle, by exact_mod_cast hlt⟩
      rw [addressSpace] at harray
      rw [fptosi_finite (by omega) (by omega), hwhole]
    | negativeZero =>
      obtain rfl : k = 0 := hindex
      rfl
    | infinite negative => exact absurd hindex not_false
    | nan => exact absurd hindex not_false
  rw [elementAt, hfptosi, Option.bind_some, if_pos (Int.natCast_nonneg k), Int.toNat_natCast]

theorem elementAt_spec (harray : array.length < addressSpace) {index : Num}
    (h : indexInBounds index array.length = true) :
    ∃ k element, IsIndex index k ∧ array[k]? = some element ∧
      elementAt array index = some element := by
  obtain ⟨k, hk, hindex⟩ := (indexInBounds_iff harray index).mp h
  have hget : array[k]? = some array[k] := List.getElem?_eq_getElem hk
  exact ⟨k, array[k], hindex, hget, (elementAt_eq harray hindex hk).trans hget⟩

/-! ### Ranges -/

/-- A number is this whole number, which a `Num` holds exactly. -/
def IsEndpoint (x : Num) (n : Int) : Prop :=
  -2 ^ 53 ≤ n ∧ n ≤ 2 ^ 53 ∧ (x = .finite n ∨ x = .negativeZero ∧ n = 0)

theorem endpoint_spec (machine : Machine) (value : Num) :
    (∃ word, endpoint machine value = .performed word ∧ Admitted word ∧
      IsEndpoint value word.toInt) ∨
      ∃ message, endpoint machine value = .reported (some 502) message ∧
        checkRangeEndpoint machine.formatNum value = .error message ∧
        ∀ n, ¬ IsEndpoint value n := by
  cases hchecked : checkRangeEndpoint machine.formatNum value with
  | ok word =>
    obtain ⟨hadmitted, hvalue⟩ := checkRangeEndpoint_ok hchecked
    refine .inl ⟨word, by rw [endpoint, hchecked], hadmitted, hadmitted.1, hadmitted.2, ?_⟩
    exact hvalue.imp_right fun ⟨hzero, hword⟩ => ⟨hzero, by rw [hword]; rfl⟩
  | error message =>
    refine .inr ⟨message, by rw [endpoint, hchecked], rfl, fun n ⟨hlow, hhigh, hvalue⟩ => ?_⟩
    have hok : ∃ word, checkRangeEndpoint machine.formatNum value = .ok word := by
      rcases hvalue with rfl | ⟨rfl, -⟩
      · have hsmall : |(n : Rat)| ≤ (Num.maxExact : Rat) := by
          have hlow' : ((-2 ^ 53 : Int) : Rat) ≤ n := Int.cast_le.mpr hlow
          have hhigh' : (n : Rat) ≤ ((2 ^ 53 : Int) : Rat) := Int.cast_le.mpr hhigh
          rw [abs_le, Num.maxExact]
          push_cast at hlow' hhigh' ⊢
          exact ⟨hlow', hhigh'⟩
        have hwhole : ((Num.finite n).hasFraction && !(Num.finite n).isInfinite) = false := by
          simp [Num.hasFraction]
        have hexact : (Num.finite n).exceedsExact = false := by
          simpa [Num.exceedsExact] using hsmall
        exact ⟨_, by rw [checkRangeEndpoint, hwhole, hexact]; rfl⟩
      · exact ⟨_, rfl⟩
    obtain ⟨word, hword⟩ := hok
    rw [hword] at hchecked
    cases hchecked

/-- The bounds of the whole numbers from one end to the other. -/
def AreBounds (lo hi : Int) (bounds : Bounds) : Prop :=
  bounds.lo.toInt = lo ∧ bounds.step.toInt = (if lo ≤ hi then 1 else -1) ∧
    bounds.count.toInt = (wholeNumbers lo hi).length

theorem areBounds_boundsOf {lo hi : BitVec 64} (hlo : Admitted lo) (hhi : Admitted hi) :
    AreBounds lo.toInt hi.toInt (boundsOf lo hi) :=
  ⟨rfl, toInt_step, (toInt_count hlo hhi).2⟩

theorem range_gives {lo hi : Num} {first last : BitVec 64}
    (hlo : endpoint machine lo = .performed first) (hhi : endpoint machine hi = .performed last)
    (hfirst : Admitted first) (hlast : Admitted last) :
    Gives machine (AreBounds first.toInt last.toInt) (range machine lo hi) := by
  have hcount := (toInt_count hfirst hlast).2
  have hlength := length_wholeNumbers first.toInt last.toInt
  have hfits : (boundsOf first last).count.toInt * NUM_SIZE < 2 ^ 63 := by
    have hlow := hfirst.1
    have hhigh := hfirst.2
    have hlow' := hlast.1
    have hhigh' := hlast.2
    rw [NUM_SIZE, hcount, hlength]
    split <;> omega
  rw [range, hlo, hhi]
  dsimp only [Outcome.bind]
  refine (allocArray_gives (by omega) (by decide) hfits).bind fun _ _ => ?_
  exact areBounds_boundsOf hfirst hlast

/-! ### Bodies -/

theorem bodyProgressTurns_eq {maxBodySize turns : Nat} {raw : List UInt8}
    (hraw : raw.length < addressSpace) (transferEncoding contentLength : List Char)
    (hturns : raw.length < turns) :
    bodyProgressTurns maxBodySize raw transferEncoding contentLength turns =
      some (bodyProgress raw transferEncoding contentLength maxBodySize) := by
  rw [addressSpace] at hraw
  rw [bodyProgressTurns, bodyProgress]
  cases hblank : findBlankLine raw with
  | none => rfl
  | some place =>
    obtain ⟨at_, spellingLen⟩ := place
    obtain ⟨spelling, rfl, hspelling⟩ := isBlankLine_of_findBlankLine hblank
    have hwithin : at_ + spelling.length ≤ raw.length := by
      have hlength := hspelling.found.length_le
      have hne := List.length_pos_iff.mpr (blankLineSpellings_ne_nil hspelling.mem)
      rw [List.length_drop] at hlength
      omega
    have hstart : addUsize at_ spelling.length = some (at_ + spelling.length) := by
      rw [addUsize, Http.usizeMax]
      exact if_neg (by omega)
    have hbody : byteRange raw (at_ + spelling.length) raw.length =
        some (raw.drop (at_ + spelling.length)) := by
      rw [byteRange_eq hwithin le_rfl, List.take_length]
    have hlength : (raw.drop (at_ + spelling.length)).length ≤ raw.length := by
      rw [List.length_drop]
      omega
    simp only [hstart, hbody, Option.bind_eq_bind, Option.bind_some]
    by_cases hchunked : isChunked transferEncoding = true
    · rw [if_pos hchunked, if_pos hchunked, dechunkProgress]
      exact dechunkTurns_eq (by omega) (by rw [isizeMax]; omega)
    · rw [if_neg hchunked, if_neg hchunked]
      by_cases hencoding : (!transferEncoding.isEmpty) = true
      · rw [if_pos hencoding, if_pos hencoding]
        rfl
      · rw [if_neg hencoding, if_neg hencoding]
        cases hexpected : fromStrRadix 10 (trim contentLength) with
        | none => rfl
        | some expected =>
          dsimp only
          by_cases hover : maxBodySize < expected
          · rw [if_pos hover, if_pos hover]
            rfl
          · rw [if_neg hover, if_neg hover]
            by_cases harrived : expected ≤ (raw.drop (at_ + spelling.length)).length
            · rw [if_pos harrived, if_pos harrived, byteRange_eq (Nat.zero_le _) harrived]
              rfl
            · rw [if_neg harrived, if_neg harrived]
              rfl

/-! ### The calls -/

/-- A positive whole number. -/
def IsChunkSize (x : Num) : Prop := ∃ n : Nat, 0 < n ∧ x = .finite n

/-- What was asked for. -/
def Right (machine : Machine) : Entry α σ → Result α → Prop
  | .sleep seconds, .waiting deadline => Waits machine.now deadline (askedSeconds seconds)
  | .serverKill seconds floor wait, .waited turn =>
    ∃ deadline, Waits machine.now deadline (boundedSeconds seconds) ∧
      ¬ Waiting wait floor deadline turn ∧ ∀ j < turn, Waiting wait floor deadline j
  | .connectionRead seconds, .waiting deadline =>
    Waits machine.now deadline (boundedSeconds seconds)
  | .tlsHandshake seconds, .waiting deadline => Waits machine.now deadline (boundedSeconds seconds)
  | .bodyProgress raw _ transferEncoding contentLength maxBodySize, .body progress =>
    progress = bodyProgress raw transferEncoding contentLength maxBodySize.asUsize
  | .streamFile _ opened _ chunkSize _ _, .file answer =>
    (∃ message, answer = .notOk message) ∨
      IsChunkSize chunkSize ∧ ∃ reads chunks, opened = .ok reads ∧
        AtCuts machine.unicode reads.pieces.flatten chunks ∧
        chunks.flatten <+: reads.pieces.flatten ∧ answer = .okNum (asF64 chunks.flatten.length)
  | .textSlice text _ start stop, .text part =>
    ∃ i j, Lands start i ∧ Lands stop j ∧ part = textSlice machine.unicode text i j
  | .textAt text _ index, .text cluster =>
    ∃ i, Lands index i ∧ cluster = textAt machine.unicode text i
  | .arrayIndex array _ index, .element element =>
    ∃ k, IsIndex index k ∧ array[k]? = some element
  | .arrayAt array _ index, .found (some element) => ∃ k, IsIndex index k ∧ array[k]? = some element
  | .arrayAt array _ index, .found none => ∀ k < array.length, ¬ IsIndex index k
  | .repeat_ text _ count, .text copied =>
    ∃ n, IsCount count n ∧ copied.content = (List.replicate n text.content).flatten
  | .range lo hi, .bounds bounds =>
    ∃ first last, IsEndpoint lo first ∧ IsEndpoint hi last ∧ AreBounds first last bounds
  | .exit code, .exited status => status = exitCode code
  | _, _ => False

/-- The report of what cannot be done. -/
def Documented (machine : Machine) : Entry α σ → Option Nat → String → Prop
  | .arrayIndex array _ index, code, message =>
    (∀ k < array.length, ¬ IsIndex index k) ∧ code = some 501 ∧
      message = "index " ++ machine.formatNum index ++ " out of bounds for an array of size " ++
        toString array.length
  | .repeat_ _ _ count, code, message =>
    ((∀ n, ¬ IsCount count n) ∧ code = none ∧
      message = "repeat: `count` must be a whole number of 0 or more") ∨
        OutOfMemory machine code message
  | .range lo hi, code, message =>
    (∃ stop, (stop = lo ∨ stop = hi) ∧ (∀ n, ¬ IsEndpoint stop n) ∧ code = some 502 ∧
      checkRangeEndpoint machine.formatNum stop = .error message) ∨ OutOfMemory machine code message
  | _, _, _ => False

def Answers (machine : Machine) (entry : Entry α σ) : Outcome (Result α) → Prop
  | .performed result => Right machine entry result
  | .reported code message => Documented machine entry code message
  | .lost => False

/-- Given turns enough, the call is answered. -/
def Answered (machine : Machine) (entry : Entry α σ) : Prop :=
  ∃ enough, ∀ turns, enough ≤ turns → Answers machine entry (run machine turns entry)

theorem chunkSizeOf_whole {chunkSize : Num} {n : Int}
    (h : (chunkSizeOf machine chunkSize).whole = some n) (hn : 0 < n) : IsChunkSize chunkSize := by
  cases chunkSize with
  | finite value =>
    by_cases hfraction : (Num.finite value).hasFraction = true
    · simp [chunkSizeOf, hfraction] at h
    · have hden : value.den = 1 := by simpa [Num.hasFraction] using hfraction
      have hvalue := Num.eq_intCast_of_den hden
      have hwhole : Num.truncated value = n := by simpa [chunkSizeOf, hfraction] using h
      rw [hvalue, truncated_intCast] at hwhole
      refine ⟨n.toNat, by omega, congrArg Num.finite ?_⟩
      rw [hvalue, hwhole, ← Int.cast_natCast, Int.toNat_of_nonneg hn.le]
  | negativeZero =>
    obtain rfl : 0 = n := Option.some.inj h
    exact absurd hn (lt_irrefl 0)
  | infinite negative => cases h
  | nan => cases h

theorem streamFile_answered (path : String) (opened : Except String Reads)
    (ends : ∀ reads, opened = .ok reads → [] ∉ reads.pieces) (chunkSize : Num)
    (onChunk : QnSlice → σ → Bool × σ) (state : σ) :
    Answered machine (Entry.streamFile path opened ends chunkSize onChunk state : Entry α σ) := by
  by_cases haccepted : Accepted (chunkSizeOf machine chunkSize) machine.reserves opened
  · obtain ⟨n, reads, hwhole, hpos, -, hopened⟩ := id haccepted
    have hof : reads.Of reads.pieces.flatten :=
      ⟨fun piece hpiece hnil => ends reads hopened (hnil ▸ hpiece), List.prefix_refl _,
        fun _ => rfl⟩
    have hkept := @kept_start machine.unicode _ _ reads hof state
    obtain ⟨answer, stream, hdelivers, hrun⟩ := run_spec asF64 path onChunk hkept
    refine ⟨reads.pieces.length + 1, fun turns hturns => ?_⟩
    rw [run, streamFile_accepted haccepted hopened, hrun turns hturns]
    cases answer with
    | notOk message => exact .inl ⟨message, rfl⟩
    | okNum n =>
      refine .inr ⟨chunkSizeOf_whole hwhole hpos, reads, stream.chunks, hopened, hdelivers.cuts,
        hdelivers.within.trans hdelivers.read, ?_⟩
      rw [hdelivers.counted n rfl]
  · obtain ⟨message, hrefused⟩ :=
      streamFile_refused haccepted machine.unicode asF64 path onChunk state
    refine ⟨0, fun turns _ => ?_⟩
    rw [run, hrefused turns]
    exact .inl ⟨message, rfl⟩

theorem range_answered (machine : Machine) (lo hi : Num) :
    Answered machine (Entry.range lo hi : Entry α σ) := by
  refine ⟨0, fun turns _ => ?_⟩
  rw [run]
  rcases endpoint_spec machine lo with ⟨first, hlo, hfirst, hfirstOf⟩ | ⟨message, hlo, herror, hnot⟩
  · rcases endpoint_spec machine hi with ⟨last, hhi, hlast, hlastOf⟩ | ⟨message, hhi, herror, hnot⟩
    · have hgives := range_gives hlo hhi hfirst hlast
      cases hrange : range machine lo hi with
      | performed bounds =>
        rw [hrange] at hgives
        exact ⟨first.toInt, last.toInt, hfirstOf, hlastOf, hgives⟩
      | reported code message => rw [hrange] at hgives; exact .inr hgives
      | lost => rw [hrange] at hgives; exact hgives
    · rw [range, hlo, hhi]
      exact .inl ⟨hi, .inr rfl, hnot, rfl, herror⟩
  · rw [range, hlo]
    exact .inl ⟨lo, .inl rfl, hnot, rfl, herror⟩

theorem repeat_answered (machine : Machine) (held : text.content.length < addressSpace)
    (count : Num) :
    Answered machine (Entry.repeat_ text held count : Entry α σ) := by
  rcases @repeat_spec machine text held count with ⟨n, hcount, hgives⟩ | ⟨hnot, hrefused⟩
  · refine ⟨n + 1, fun turns hturns => ?_⟩
    have hcopied := hgives turns (by omega)
    rw [run]
    cases hrepeat : repeat_ machine text count turns with
    | performed copied => rw [hrepeat] at hcopied; exact ⟨n, hcount, hcopied⟩
    | reported code message => rw [hrepeat] at hcopied; exact .inr hcopied
    | lost => rw [hrepeat] at hcopied; exact hcopied
  · refine ⟨0, fun turns _ => ?_⟩
    rw [run, hrefused turns]
    exact .inl ⟨hnot, rfl, rfl⟩

/-- The calls but `@sleep`. -/
theorem answered_of_not_sleep (machine : Machine) (entry : Entry α σ)
    (h : ∀ seconds, entry ≠ .sleep seconds) : Answered machine entry := by
  cases entry with
  | sleep seconds => exact absurd rfl (h seconds)
  | serverKill seconds floor wait =>
    obtain ⟨deadline, first, hwaits, hfirst, hbefore, hends⟩ :=
      waitForInFlight_spec machine.young wait floor seconds
    refine ⟨first + 1, fun turns hturns => ?_⟩
    rw [run, hends turns hturns]
    exact ⟨deadline, hwaits, hfirst, hbefore⟩
  | connectionRead seconds =>
    obtain ⟨deadline, hdeadline, hwaits, -⟩ := boundedDeadline_spec machine.young seconds
    refine ⟨0, fun turns _ => ?_⟩
    rw [run, hdeadline]
    exact hwaits
  | tlsHandshake seconds =>
    obtain ⟨deadline, hdeadline, hwaits, -⟩ := boundedDeadline_spec machine.young seconds
    refine ⟨0, fun turns _ => ?_⟩
    rw [run, hdeadline]
    exact hwaits
  | bodyProgress raw held transferEncoding contentLength maxBodySize =>
    refine ⟨raw.length + 1, fun turns hturns => ?_⟩
    rw [run, bodyProgressTurns_eq held transferEncoding contentLength (by omega)]
    rfl
  | streamFile path opened ends chunkSize onChunk state =>
    exact streamFile_answered path opened ends chunkSize onChunk state
  | textSlice text held start stop =>
    obtain ⟨i, hi, hstart⟩ := saturatingI64_lands start
    obtain ⟨j, hj, hstop⟩ := saturatingI64_lands stop
    refine ⟨0, fun turns _ => ?_⟩
    rw [run, hi, hj, Option.bind_some, Option.bind_some, textSliceChecked_eq]
    exact ⟨i, j, hstart, hstop, rfl⟩
  | textAt text held index =>
    obtain ⟨i, hi, hindex⟩ := saturatingI64_lands index
    refine ⟨0, fun turns _ => ?_⟩
    rw [run, hi, Option.bind_some, textAtChecked_eq]
    exact ⟨i, hindex, rfl⟩
  | arrayIndex array held index =>
    refine ⟨0, fun turns _ => ?_⟩
    rw [run, arrayIndex]
    by_cases hbounds : indexInBounds index array.length = true
    · obtain ⟨k, element, hindex, hget, helement⟩ := elementAt_spec held hbounds
      rw [if_pos hbounds, helement]
      exact ⟨k, hindex, hget⟩
    · rw [if_neg hbounds]
      exact ⟨fun k hk hindex => hbounds ((indexInBounds_iff held index).mpr ⟨k, hk, hindex⟩), rfl,
        rfl⟩
  | arrayAt array held index =>
    refine ⟨0, fun turns _ => ?_⟩
    rw [run, arrayAt]
    by_cases hbounds : indexInBounds index array.length = true
    · obtain ⟨k, element, hindex, hget, helement⟩ := elementAt_spec held hbounds
      rw [if_pos hbounds, helement]
      exact ⟨k, hindex, hget⟩
    · rw [if_neg hbounds]
      exact fun k hk hindex => hbounds ((indexInBounds_iff held index).mpr ⟨k, hk, hindex⟩)
  | repeat_ text held count => exact repeat_answered machine held count
  | range lo hi => exact range_answered machine lo hi
  | exit code =>
    refine ⟨0, fun turns _ => ?_⟩
    rw [run, saturatingI32_eq]
    rfl

/-- Every call answers every number, but for the pauses that are too long. -/
theorem numbers_answered (machine : Machine) (entry : Entry α σ) :
    Answered machine entry ↔
      ¬ ∃ seconds, entry = .sleep seconds ∧ SleepsTooLong machine.now seconds := by
  constructor
  · rintro ⟨enough, hanswers⟩ ⟨seconds, rfl, htooLong⟩
    have hlost := hanswers enough le_rfl
    rw [run, sleepSeconds_tooLong htooLong] at hlost
    exact hlost
  · intro h
    by_cases hsleep : ∃ seconds, entry = .sleep seconds
    · obtain ⟨seconds, rfl⟩ := hsleep
      obtain ⟨deadline, hdeadline, hwaits⟩ :=
        sleepSeconds_spec machine.young fun htooLong => h ⟨seconds, rfl, htooLong⟩
      refine ⟨0, fun turns _ => ?_⟩
      rw [run, hdeadline]
      exact hwaits
    · exact answered_of_not_sleep machine entry fun seconds heq => hsleep ⟨seconds, heq⟩

/-- A machine just started, with a gigabyte to give. -/
def gigabyte : Machine where
  now := 0
  young := by decide
  grants bytes := decide (bytes ≤ 2 ^ 30)
  grants_lt bytes h := lt_of_le_of_lt (of_decide_eq_true h) (by decide)
  reserves bytes := decide (bytes ≤ 2 ^ 30)
  formatNum _ := ""
  unicode := latin

/-- `@sleep(1 / 0)` ends the process. -/
theorem not_answered_sleep_infinite :
    ¬ ∀ (machine : Machine) (entry : Entry Unit Unit), Answered machine entry := by
  intro h
  obtain ⟨enough, hanswers⟩ := h gigabyte (.sleep (.infinite false))
  exact hanswers enough le_rfl

end Quilon.Ranges.Numbers
