import Quilon.Codegen.Equiv.RangeBounds

/-!
# Correctness of the methods over ranges

Over the bounds of a range or over the array built from it, a method does what it does over the list
of whole numbers between the ends (`methodOver`): the two lowerings follow the same run of the
program, call for call (`generateArrayMethod_refines`, `applyToArray_refines`), so they agree.

An array a lowering has allocated is not touched by what runs in between: blocks are only added, and
one that is being filled is written to by its own loop alone (`Frames`, `Offers`).
-/

namespace Quilon.Ranges

variable {V W φ α β : Type} {host : Host V W φ}

/-! ### What leaves the blocks alone -/

/-- A step on the world. -/
def onList (step : Memory V W → Run V W φ α) (world : W) : Except (Failure φ × W) (α × W) :=
  (step ⟨[], world⟩).map fun (a, memory) => (a, memory.world)

/-- The step neither reads nor changes the blocks. -/
def Frames (step : Memory V W → Run V W φ α) : Prop :=
  ∀ blocks world, step ⟨blocks, world⟩ =
    (onList step world).map fun (a, world) => (a, ⟨blocks, world⟩)

theorem frames_onWorld (run : W → Except (φ × W) (α × W)) :
    Frames fun memory : Memory V W => onWorld memory (run memory.world) := by
  intro blocks world
  show onWorld _ (run world) = Except.map _ (Except.map _ (onWorld _ (run world)))
  cases run world with
  | ok result => rfl
  | error failure => rfl

theorem Frames.bind {step : Memory V W → Run V W φ α} {next : α → Memory V W → Run V W φ β}
    (hstep : Frames step) (hnext : ∀ a, Frames (next a)) :
    Frames fun memory => (step memory).bind fun (a, memory) => next a memory := by
  intro blocks world
  have hempty := hstep [] world
  rw [onList]
  dsimp only
  rw [hstep blocks world, hempty]
  cases onList step world with
  | error failure => rfl
  | ok result =>
    obtain ⟨a, world'⟩ := result
    exact hnext a blocks world'

theorem frames_ok (a : α) : Frames fun memory : Memory V W => (.ok (a, memory) : Run V W φ α) :=
  fun _ _ => rfl

theorem frames_error (failure : Failure φ) :
    Frames fun memory : Memory V W => (.error (failure, memory.world) : Run V W φ α) :=
  fun _ _ => rfl

/-- What is done with a value that has to be a float. -/
theorem frames_floatValue (value : V) {next : Num → Memory V W → Run V W φ α}
    (hnext : ∀ x, Frames (next x)) :
    Frames fun memory : Memory V W =>
      match host.floatValue value with
      | some x => next x memory
      | none => .error (.notAFloat, memory.world) := by
  cases host.floatValue value with
  | none => exact frames_error .notAFloat
  | some x => exact hnext x

theorem frames_generateExpression : ∀ expression, Frames (generateExpression host expression)
  | .number value _ => frames_ok (host.ofNum (host.nearest value))
  | .unaryOperator .neg expression _ =>
    (frames_generateExpression expression).bind fun value =>
      frames_floatValue value fun x => frames_ok (host.ofNum x.neg)
  | .unaryOperator .not _ _ | .string _ _ | .interpolation _ _ | .bool _ _ | .unit _
  | .identifier _ _ | .binaryOperator _ _ _ _ | .call _ _ _ _ | .lambda _ _ _ _ | .block _ _
  | .ifThenElse _ _ _ _ | .match_ _ _ _ | .fieldAccess _ _ _ | .fieldAssign _ _ _
  | .index _ _ _ | .indexAssign _ _ _ | .array _ _ | .mapLiteral _ _ | .setLiteral _ _
  | .record _ _ | .constructor _ _ _ | .range _ _ _ | .spread _ _ => frames_onWorld _

theorem frames_evaluatedEndpoint (host : Host V W φ) (stop : Expression) (span : Span) :
    Frames (evaluatedEndpoint host stop span) := by
  have hchecked : ∀ value, Frames (checkedEndpoint host value span) := by
    intro value blocks world
    rw [checkedEndpoint, onList, checkedEndpoint]
    cases checkRangeEndpoint host.formatNum value with
    | ok endpoint => rfl
    | error message => rfl
  exact (frames_generateExpression stop).bind fun value => frames_floatValue value hchecked

/-- A callback that is not written as a lambda is evaluated. -/
theorem prepareCallback_closure {callback : Expression}
    (hlambda : ¬∃ parameters returnType body span,
      callback = .lambda parameters returnType body span) (memory : Memory V W) :
    prepareCallback host callback memory =
      if host.isFunction callback then
        (generateExpression host callback memory).bind fun (value, memory) =>
          .ok (.closure value, memory)
      else .error (.notAFunction, memory.world) := by
  cases callback with
  | lambda parameters returnType body span =>
    exact absurd ⟨parameters, returnType, body, span, rfl⟩ hlambda
  | _ => rfl

theorem frames_prepareCallback (callback : Expression) :
    Frames (prepareCallback host callback) := by
  by_cases hlambda : ∃ parameters returnType body span,
      callback = .lambda parameters returnType body span
  · obtain ⟨parameters, returnType, body, span, rfl⟩ := hlambda
    exact frames_ok (Callback.lambda parameters body)
  · rw [show prepareCallback host callback = _ from funext (prepareCallback_closure hlambda)]
    cases host.isFunction callback with
    | true =>
      exact (frames_generateExpression callback).bind fun value =>
        frames_ok (Callback.closure value)
    | false => exact frames_error .notAFunction

theorem frames_applyCallback (callback : Callback V) (arguments : List V) :
    Frames (applyCallback host callback arguments) := by
  cases callback with
  | closure value => exact frames_onWorld _
  | lambda parameters body =>
    by_cases harity : parameters.length ≠ arguments.length
    · have hstep : applyCallback host (.lambda parameters body) arguments = fun memory =>
          .error (.lambdaArity parameters.length arguments.length, memory.world) :=
        funext fun memory => if_pos harity
      rw [hstep]
      exact frames_error _
    · have hstep : applyCallback host (.lambda parameters body) arguments = fun memory =>
          onWorld memory (host.inlineBody parameters body arguments memory.world) :=
        funext fun memory => if_neg harity
      rw [hstep]
      exact frames_onWorld _

/-! ### The methods over a list -/

section Lists

variable (host)

/-- Whether there is room for so many results. -/
def reserve (elemSize : Int) (count : BitVec 64) (world : W) :
    Except (Failure φ × W) (Unit × W) :=
  onList (fun memory : Memory V W =>
    (allocArrayData elemSize count memory).map fun (_, memory) => ((), memory)) world

def mapOver (callback : Expression) (count : BitVec 64) (xs : List V) (world : W) :
    Except (Failure φ × W) (List V × W) :=
  (onList (prepareCallback host callback) world).bind fun (prepared, world) =>
    (reserve (V := V) ((host.returnSize callback).getD NUM_SIZE) count world).bind fun (_, world) =>
      foldE (fun x (results, world) =>
        (onList (applyCallback host prepared [x]) world).bind fun (mapped, world) =>
          .ok (results ++ [mapped], world)) xs ([], world)

def filterOver (callback : Expression) (count : BitVec 64) (xs : List V) (world : W) :
    Except (Failure φ × W) (List V × W) :=
  (onList (prepareCallback host callback) world).bind fun (prepared, world) =>
    (reserve (V := V) NUM_SIZE count world).bind fun (_, world) =>
      foldE (fun x (results, world) =>
        (onList (applyCallback host prepared [x]) world).bind fun (keep, world) =>
          .ok (if host.valueToBoolean keep then results ++ [x] else results, world)) xs ([], world)

def reduceOver (init callback : Expression) (xs : List V) (world : W) :
    Except (Failure φ × W) (V × W) :=
  (onList (generateExpression host init) world).bind fun (initial, world) =>
    (onList (prepareCallback host callback) world).bind fun (prepared, world) =>
      foldE (fun x (acc, world) => onList (applyCallback host prepared [acc, x]) world) xs
        (initial, world)

def eachOver (callback : Expression) (xs : List V) (world : W) :
    Except (Failure φ × W) (Unit × W) :=
  (onList (prepareCallback host callback) world).bind fun (prepared, world) =>
    foldE (fun x (_, world) =>
      (onList (applyCallback host prepared [x]) world).bind fun (_, world) => .ok ((), world)) xs
        ((), world)

end Lists

/-! ### Sources -/

/-- The blocks begin with `base`, and that is where the source finds the elements. -/
def Offers (host : Host V W φ) (source : ElementSource) (base : List (List (Option V)))
    (xs : List V) : Prop :=
  ∀ (k : Nat) x, xs[k]? = some x → ∀ more world,
    sourceElement host source (BitVec.ofNat 64 k) ⟨base ++ more, world⟩ = .ok x

theorem toNat_counter {n : Int} {size : BitVec 64} (hsize : size.toInt = n) {k : Nat}
    (hk : (k : Int) < n) : (BitVec.ofNat 64 k).toNat = k := by
  have hmax : size.toInt < 2 ^ 63 := BitVec.toInt_lt
  rw [BitVec.toNat_ofNat]
  exact Nat.mod_eq_of_lt (by omega)

theorem offers_memory (host : Host V W φ) {data : Nat} {base : List (List (Option V))} {xs : List V}
    {size : BitVec 64} (hsize : size.toInt = xs.length) (h : base[data]? = some (xs.map some)) :
    Offers host (.memory data) base xs := by
  intro k x hx more world
  have hk : k < xs.length := (List.getElem?_eq_some_iff.mp hx).1
  have hdata : data < base.length := (List.getElem?_eq_some_iff.mp h).1
  rw [sourceElement, loadElement, toNat_counter hsize (Int.ofNat_lt.mpr hk),
    List.getElem?_append_left hdata, h]
  dsimp only [Option.bind]
  rw [List.getElem?_map, hx]
  rfl

/-- What the elements of a range are as values. -/
def numbers (host : Host V W φ) (lo hi : Int) : List V :=
  (wholeNumbers lo hi).map fun (n : Int) => host.ofNum (.finite n)

theorem offers_range {lo hi : BitVec 64} (hlo : Admitted lo) (hhi : Admitted hi)
    (base : List (List (Option V))) :
    Offers host (.range lo (boundsOf lo hi).step) base (numbers host lo.toInt hi.toInt) := by
  intro k x hx more world
  rw [numbers, List.getElem?_map, Option.map_eq_some_iff] at hx
  obtain ⟨n, hn, rfl⟩ := hx
  rw [sourceElement, rangeElement_eq host hlo hhi hn]

theorem length_numbers (host : Host V W φ) {lo hi : BitVec 64} (hlo : Admitted lo)
    (hhi : Admitted hi) :
    (boundsOf lo hi).count.toInt = (numbers host lo.toInt hi.toInt).length := by
  rw [numbers, List.length_map, (toInt_count hlo hhi).2]

/-! ### Arrays being filled -/

/-- A block of `size` elements whose first ones are written. -/
def filled (results : List V) (size : BitVec 64) : List (Option V) :=
  results.map some ++ List.replicate (size.toNat - results.length) none

theorem filled_full {results : List V} {size : BitVec 64} (h : size.toInt = results.length) :
    filled results size = results.map some := by
  have hmax : size.toInt < 2 ^ 63 := BitVec.toInt_lt
  have hlength : size.toNat = results.length := by
    rw [BitVec.toInt_eq_toNat_cond] at h hmax
    split at h <;> omega
  rw [filled, hlength, Nat.sub_self, List.replicate_zero, List.append_nil]

theorem storeElement_filled {base : List (List (Option V))} {world : W} {results : List V}
    {size : BitVec 64} {n : Nat} (hsize : size.toInt = n) (hroom : results.length < n) (value : V) :
    storeElement (φ := φ) ⟨base ++ [filled results size], world⟩ base.length
        (BitVec.ofNat 64 results.length) value =
      .ok ⟨base ++ [filled (results ++ [value]) size], world⟩ := by
  have hplace := toNat_counter hsize (Int.ofNat_lt.mpr hroom)
  have hlength : size.toNat = n := by
    have hmax : size.toInt < 2 ^ 63 := BitVec.toInt_lt
    rw [BitVec.toInt_eq_toNat_cond] at hsize hmax
    split at hsize <;> omega
  obtain ⟨rest, hrest⟩ : ∃ rest, n - results.length = rest + 1 := ⟨n - results.length - 1, by omega⟩
  have hrest' : n - (results ++ [value]).length = rest := by
    rw [List.length_append, List.length_singleton]
    omega
  have hin : results.length < (filled results size).length := by
    rw [filled, List.length_append, List.length_map, List.length_replicate, hlength]
    omega
  have hwritten : (filled results size).set results.length (some value) =
      filled (results ++ [value]) size := by
    rw [filled, filled, hlength, hrest, hrest', List.set_append_right _ _ (by simp),
      List.length_map, Nat.sub_self, List.replicate_succ, List.set_cons_zero, List.map_append,
      List.append_assoc]
    rfl
  rw [storeElement]
  dsimp only
  rw [List.getElem?_append_right (Nat.le_refl _), Nat.sub_self]
  dsimp only [List.getElem?_cons_zero]
  rw [hplace, if_pos hin, List.set_append_right _ _ (Nat.le_refl _), Nat.sub_self,
    List.set_cons_zero, hwritten]

theorem allocArrayData_refines (base : List (List (Option V))) (elemSize : Int)
    (count : BitVec 64) (world : W) :
    Refines (fun (_, world') result =>
        result = (base.length, (⟨base ++ [filled [] count], world'⟩ : Memory V W)))
      (reserve (V := V) (φ := φ) elemSize count world)
      (allocArrayData elemSize count ⟨base, world⟩) := by
  rw [reserve, onList, allocArrayData, allocArrayData]
  by_cases hinvalid : (count.toInt < 0 || elemSize < 0) = true
  · rw [if_pos hinvalid, if_pos hinvalid]
    exact .error _
  · rw [if_neg hinvalid, if_neg hinvalid]
    by_cases hlarge : 2 ^ 63 ≤ count.toInt * elemSize
    · rw [if_pos hlarge, if_pos hlarge]
      exact .error _
    · rw [if_neg hlarge, if_neg hlarge]
      exact .ok rfl

theorem Frames.refines {step : Memory V W → Run V W φ α} (h : Frames step)
    (base : List (List (Option V))) (world : W) :
    Refines (fun (a, world') result => result = (a, ⟨base, world'⟩)) (onList step world)
      (step ⟨base, world⟩) := by
  rw [h base world]
  cases onList step world with
  | error failure => exact .error _
  | ok result => exact .ok rfl

/-! ### The methods follow the list -/

/-- The array holds these values, and begins a block. -/
def Holds (results : List V) (array : ArrayStruct) (memory : Memory V W) : Prop :=
  array.size.toInt = results.length ∧
    ∃ rest, memory.blocks[array.data]? = some (results.map some ++ rest)

theorem holds_filled {base : List (List (Option V))} {world : W} {results : List V}
    {size count : BitVec 64} (hcount : count.toInt = results.length) :
    Holds results ⟨base.length, count⟩ (⟨base ++ [filled results size], world⟩ : Memory V W) :=
  ⟨hcount, _, by rw [List.getElem?_append_right (Nat.le_refl _), Nat.sub_self]; rfl⟩

section Methods

variable {source : ElementSource} {base : List (List (Option V))} {xs : List V}
  {size : BitVec 64}

theorem arrayMap_refines (hoffers : Offers host source base xs) (hsize : size.toInt = xs.length)
    (callback : Expression) (world : W) :
    Refines (fun (results, world') (array, memory) =>
        memory.world = world' ∧ Holds results array memory)
      (mapOver host callback size xs world) (arrayMap host callback source size ⟨base, world⟩) := by
  rw [mapOver, arrayMap]
  refine ((frames_prepareCallback callback).refines base world).bind ?_
  rintro ⟨prepared, world₁⟩ _ rfl
  refine (allocArrayData_refines base _ size world₁).bind ?_
  rintro ⟨-, world₂⟩ _ rfl
  refine (countedLoop_refines (R := fun k (results, world) memory =>
    results.length = k ∧ memory = ⟨base ++ [filled results size], world⟩)
      hsize ?_ ⟨rfl, rfl⟩).lastRight ?_
  · rintro k x ⟨results, world₃⟩ _ hx ⟨rfl, rfl⟩
    have hk : results.length < xs.length := (List.getElem?_eq_some_iff.mp hx).1
    dsimp only
    rw [hoffers _ x hx]
    refine ((frames_applyCallback prepared [x]).refines _ world₃).bind ?_
    rintro ⟨mapped, world₄⟩ _ rfl
    dsimp only
    rw [storeElement_filled hsize hk]
    exact .ok ⟨List.length_append, rfl⟩
  · rintro ⟨results, world₃⟩ _ ⟨hlength, rfl⟩
    exact ⟨_, rfl, rfl, holds_filled (by rw [hsize, hlength])⟩

theorem arrayFilter_refines (hoffers : Offers host source base xs)
    (hsize : size.toInt = xs.length) (callback : Expression) (world : W) :
    Refines (fun (results, world') (array, memory) =>
        memory.world = world' ∧ Holds results array memory)
      (filterOver host callback size xs world)
      (arrayFilter host callback source size ⟨base, world⟩) := by
  have hmax : size.toInt < 2 ^ 63 := BitVec.toInt_lt
  rw [filterOver, arrayFilter]
  refine ((frames_prepareCallback callback).refines base world).bind ?_
  rintro ⟨prepared, world₁⟩ _ rfl
  refine (allocArrayData_refines base _ size world₁).bind ?_
  rintro ⟨-, world₂⟩ _ rfl
  refine (countedLoop_refines
    (R := fun k (result : List V × W) (state : BitVec 64 × Memory V W) =>
      result.1.length ≤ k ∧ state = (BitVec.ofNat 64 result.1.length,
        (⟨base ++ [filled result.1 size], result.2⟩ : Memory V W)))
    hsize ?_ ⟨Nat.le_refl _, rfl⟩).lastRight ?_
  · rintro k x ⟨results, world₃⟩ _ hx ⟨hle, rfl⟩
    change results.length ≤ k at hle
    have hk : k < xs.length := (List.getElem?_eq_some_iff.mp hx).1
    dsimp only
    rw [hoffers _ x hx]
    refine ((frames_applyCallback prepared [x]).refines _ world₃).bind ?_
    rintro ⟨keep, world₄⟩ _ rfl
    dsimp only
    by_cases hkeep : host.valueToBoolean keep = true
    · rw [if_pos hkeep, if_pos hkeep, storeElement_filled hsize (by omega)]
      refine .ok ⟨?_, ?_⟩
      · show (results ++ [x]).length ≤ k + 1
        rw [List.length_append, List.length_singleton]
        omega
      · rw [List.length_append, List.length_singleton, BitVec.ofNat_add]
    · rw [if_neg hkeep, if_neg hkeep]
      exact .ok ⟨Nat.le_succ_of_le hle, rfl⟩
  · rintro ⟨results, world₃⟩ _ ⟨hle, rfl⟩
    refine ⟨_, rfl, rfl, holds_filled ?_⟩
    rw [BitVec.toInt_ofNat']
    exact Int.bmod_eq_of_le (by omega) (by omega)

theorem arrayReduce_refines (hoffers : Offers host source base xs)
    (hsize : size.toInt = xs.length) (init callback : Expression) (world : W) :
    Refines (fun (value, world') result => result = (value, (⟨base, world'⟩ : Memory V W)))
      (reduceOver host init callback xs world)
      (arrayReduce host init callback source size ⟨base, world⟩) := by
  rw [reduceOver, arrayReduce]
  refine ((frames_generateExpression init).refines base world).bind ?_
  rintro ⟨initial, world₁⟩ _ rfl
  refine ((frames_prepareCallback callback).refines base world₁).bind ?_
  rintro ⟨prepared, world₂⟩ _ rfl
  refine countedLoop_refines
    (R := fun _ (result : V × W) state => state = (result.1, (⟨base, result.2⟩ : Memory V W)))
    hsize ?_ rfl
  rintro k x ⟨acc, world₃⟩ _ hx rfl
  have hsource := hoffers k x hx [] world₃
  rw [List.append_nil] at hsource
  dsimp only
  rw [hsource]
  exact (frames_applyCallback prepared [acc, x]).refines base world₃

theorem arrayEach_refines (hoffers : Offers host source base xs) (hsize : size.toInt = xs.length)
    (callback : Expression) (world : W) :
    Refines (fun (_, world') result => result = ((), ⟨base, world'⟩))
      (eachOver host callback xs world) (arrayEach host callback source size ⟨base, world⟩) := by
  rw [eachOver, arrayEach]
  refine ((frames_prepareCallback callback).refines base world).bind ?_
  rintro ⟨prepared, world₁⟩ _ rfl
  refine (countedLoop_refines (R := fun _ (_, world) memory => memory = ⟨base, world⟩)
    hsize ?_ rfl).lastRight ?_
  · rintro k x ⟨-, world₂⟩ _ hx rfl
    have hsource := hoffers k x hx [] world₂
    rw [List.append_nil] at hsource
    dsimp only
    rw [hsource]
    refine ((frames_applyCallback prepared [x]).refines base world₂).bind ?_
    rintro ⟨-, world₃⟩ _ rfl
    exact .ok rfl
  · rintro ⟨-, world₂⟩ _ rfl
    exact ⟨_, rfl, rfl⟩

end Methods

/-! ### Ranges -/

section Ends

variable (host)

/-- The two ends, each evaluated once and checked. -/
def rangeEnds (start stop : Expression) (span : Span) (world : W) :
    Except (Failure φ × W) ((BitVec 64 × BitVec 64) × W) :=
  (onList (evaluatedEndpoint host start span) world).bind fun (lo, world) =>
    (onList (evaluatedEndpoint host stop span) world).bind fun (hi, world) => .ok ((lo, hi), world)

end Ends

variable {start stop : Expression} {span : Span}

theorem rangeEndpoint_refines (stop : Expression) (span : Span) (base : List (List (Option V)))
    (world : W) :
    Refines (fun (result : BitVec 64 × W) state =>
        Admitted result.1 ∧ state = (result.1, (⟨base, result.2⟩ : Memory V W)))
      (onList (evaluatedEndpoint host stop span) world)
      (rangeEndpoint host stop span ⟨base, world⟩) := by
  have hframes := frames_evaluatedEndpoint host stop span base world
  rw [← rangeEndpoint_eq] at hframes
  cases hend : onList (evaluatedEndpoint host stop span) world with
  | error failure =>
    rw [hframes, hend]
    exact .error _
  | ok result =>
    rw [hend] at hframes
    rw [hframes]
    exact .ok ⟨admitted_of_rangeEndpoint hframes, rfl⟩

theorem rangeBounds_refines (start stop : Expression) (span : Span)
    (base : List (List (Option V))) (world : W) :
    Refines (fun (result : (BitVec 64 × BitVec 64) × W) state =>
        Admitted result.1.1 ∧ Admitted result.1.2 ∧
          state = (boundsOf result.1.1 result.1.2, (⟨base, result.2⟩ : Memory V W)))
      (rangeEnds host start stop span world) (rangeBounds host start stop span ⟨base, world⟩) := by
  rw [rangeEnds, rangeBounds]
  refine (rangeEndpoint_refines start span base world).bind ?_
  rintro ⟨lo, world₁⟩ _ ⟨hlo, rfl⟩
  refine (rangeEndpoint_refines stop span base world₁).bind ?_
  rintro ⟨hi, world₂⟩ _ ⟨hhi, rfl⟩
  exact .ok ⟨hlo, hhi, rfl⟩

/-- The array of a range always fits. -/
theorem allocArrayData_range {lo hi : BitVec 64} (hlo : Admitted lo) (hhi : Admitted hi)
    (base : List (List (Option V))) (world : W) :
    allocArrayData (φ := φ) NUM_SIZE (boundsOf lo hi).count ⟨base, world⟩ =
      .ok (base.length, ⟨base ++ [filled [] (boundsOf lo hi).count], world⟩) := by
  have hcount := (toInt_count hlo hhi).2
  rw [length_wholeNumbers] at hcount
  have hlow := hlo.1
  have hlow' := hlo.2
  have hhigh := hhi.1
  have hhigh' := hhi.2
  have hvalid : ¬ ((boundsOf lo hi).count.toInt < 0 || NUM_SIZE < 0) = true := by
    rw [Bool.or_eq_true, decide_eq_true_eq, decide_eq_true_eq, NUM_SIZE]
    omega
  have hsmall : ¬ 2 ^ 63 ≤ (boundsOf lo hi).count.toInt * NUM_SIZE := by
    rw [NUM_SIZE]
    omega
  rw [allocArrayData, if_neg hvalid, if_neg hsmall]
  rfl

theorem foldE_append (xs ys : List V) :
    foldE (ε := Failure φ × W) (fun x results => .ok (results ++ [x])) xs ys = .ok (ys ++ xs) := by
  induction xs generalizing ys with
  | nil => rw [foldE, List.append_nil]
  | cons x xs ih =>
    rw [foldE]
    exact (ih (ys ++ [x])).trans (by rw [List.append_assoc, List.singleton_append])

/-- The array of a range holds the whole numbers between its ends. -/
theorem generateRange_refines (start stop : Expression) (span : Span)
    (base : List (List (Option V))) (world : W) :
    Refines (fun (result : (BitVec 64 × BitVec 64) × W) state =>
        Admitted result.1.1 ∧ Admitted result.1.2 ∧
          state = (⟨base.length, (boundsOf result.1.1 result.1.2).count⟩,
            (⟨base ++ [(numbers host result.1.1.toInt result.1.2.toInt).map some], result.2⟩ :
              Memory V W)))
      (rangeEnds host start stop span world)
      (generateRange host start stop span ⟨base, world⟩) := by
  rw [generateRange]
  refine (rangeBounds_refines start stop span base world).lastRight ?_
  rintro ⟨⟨lo, hi⟩, world₁⟩ _ ⟨hlo, hhi, rfl⟩
  dsimp only at hlo hhi ⊢
  rw [allocArrayData_range hlo hhi]
  dsimp only [Except.bind]
  have hsize := length_numbers host hlo hhi
  have hloop : Refines (fun results memory =>
        results.length = (numbers host lo.toInt hi.toInt).length ∧
          memory = (⟨base ++ [filled results (boundsOf lo hi).count], world₁⟩ : Memory V W))
      (foldE (fun x results => .ok (results ++ [x])) (numbers host lo.toInt hi.toInt) [])
      (countedLoop (boundsOf lo hi).count (fun i memory =>
        storeElement (φ := φ) memory base.length i
          (rangeElement host (boundsOf lo hi).lo (boundsOf lo hi).step i)) 0#64
            ⟨base ++ [filled [] (boundsOf lo hi).count], world₁⟩) := by
    refine countedLoop_refines (R := fun k results memory => List.length results = k ∧
      memory = (⟨base ++ [filled results (boundsOf lo hi).count], world₁⟩ : Memory V W))
        hsize ?_ ⟨rfl, rfl⟩
    rintro k x results _ hx ⟨rfl, rfl⟩
    have hk := (List.getElem?_eq_some_iff.mp hx).1
    have helement := offers_range hlo hhi base _ x hx [] world₁
    obtain rfl : rangeElement host lo (boundsOf lo hi).step (BitVec.ofNat 64 results.length) = x :=
      Except.ok.inj helement
    rw [storeElement_filled hsize hk]
    exact .ok ⟨List.length_append, rfl⟩
  rw [foldE_append, List.nil_append] at hloop
  generalize countedLoop _ _ _ _ = run at hloop ⊢
  cases hloop with
  | ok hdone =>
    obtain ⟨-, rfl⟩ := hdone
    refine ⟨_, rfl, hlo, hhi, ?_⟩
    rw [filled_full hsize]

/-! ### Lowered either way -/

/-- What a method gives over a list. -/
inductive Outcome (V : Type) where
  | list (results : List V)
  | value (value : V)

/-- The outcome and the state of the world are there in memory. -/
def Shows : Outcome V × W → MethodValue V × Memory V W → Prop
  | (.list results, world), (.array array, memory) =>
    memory.world = world ∧ Holds results array memory
  | (.value value, world), (.value value', memory) => memory.world = world ∧ value' = value
  | _, _ => False

section Methods

variable (host)

/-- A method over the elements. -/
def methodOver (method : Method) (count : BitVec 64) (xs : List V) (world : W) :
    Except (Failure φ × W) (Outcome V × W) :=
  match method with
  | .map callback =>
    (mapOver host callback count xs world).bind fun (results, world) => .ok (.list results, world)
  | .filter callback =>
    (filterOver host callback count xs world).bind fun (results, world) =>
      .ok (.list results, world)
  | .reduce init callback =>
    (reduceOver host init callback xs world).bind fun (value, world) => .ok (.value value, world)
  | .each callback =>
    (eachOver host callback xs world).bind fun (_, world) => .ok (.list xs, world)

/-- A method over the whole numbers from one end to the other. -/
def rangeOver (method : Method) (start stop : Expression) (span : Span) (world : W) :
    Except (Failure φ × W) (Outcome V × W) :=
  (rangeEnds host start stop span world).bind fun ((lo, hi), world) =>
    methodOver host method (boundsOf lo hi).count (numbers host lo.toInt hi.toInt) world

/-- The array first, and the method over it. -/
def methodOfBuiltRange (method : Method) (start stop : Expression) (span : Span)
    (memory : Memory V W) : Run V W φ (MethodValue V) :=
  (generateRange host start stop span memory).bind fun (array, memory) =>
    applyToArray host method array memory

end Methods

theorem applyToArray_refines {base : List (List (Option V))} {data : Nat} {size : BitVec 64}
    {xs : List V} (hsize : size.toInt = xs.length) (hblock : base[data]? = some (xs.map some))
    (method : Method) (world : W) :
    Refines Shows (methodOver host method size xs world)
      (applyToArray host method ⟨data, size⟩ ⟨base, world⟩) := by
  have hoffers := offers_memory host hsize hblock
  cases method with
  | map callback =>
    refine (arrayMap_refines hoffers hsize callback world).bind ?_
    rintro ⟨results, world₁⟩ ⟨array, memory⟩ h
    exact .ok h
  | filter callback =>
    refine (arrayFilter_refines hoffers hsize callback world).bind ?_
    rintro ⟨results, world₁⟩ ⟨array, memory⟩ h
    exact .ok h
  | reduce init callback =>
    refine (arrayReduce_refines hoffers hsize init callback world).bind ?_
    rintro ⟨value, world₁⟩ _ rfl
    exact .ok ⟨rfl, rfl⟩
  | each callback =>
    refine (arrayEach_refines hoffers hsize callback world).bind ?_
    rintro ⟨-, world₁⟩ _ rfl
    exact .ok ⟨rfl, hsize, [], by rw [List.append_nil]; exact hblock⟩

/-- Over the array that has been built. -/
theorem methodOfBuiltRange_refines (host : Host V W φ) (method : Method)
    (start stop : Expression) (span : Span) (base : List (List (Option V))) (world : W) :
    Refines Shows (rangeOver host method start stop span world)
      (methodOfBuiltRange host method start stop span ⟨base, world⟩) := by
  rw [rangeOver, methodOfBuiltRange]
  refine (generateRange_refines start stop span base world).bind ?_
  rintro ⟨⟨lo, hi⟩, world₁⟩ _ ⟨hlo, hhi, rfl⟩
  refine applyToArray_refines (length_numbers host hlo hhi) ?_ method world₁
  rw [List.getElem?_append_right (Nat.le_refl _), Nat.sub_self]
  rfl

/-- Over the bounds. -/
theorem generateArrayMethod_refines (host : Host V W φ) (method : Method)
    (start stop : Expression) (span : Span) (base : List (List (Option V))) (world : W) :
    Refines Shows (rangeOver host method start stop span world)
      (generateArrayMethod host method start stop span ⟨base, world⟩) := by
  cases method with
  | map callback =>
    rw [rangeOver, generateArrayMethod]
    refine (rangeBounds_refines start stop span base world).bind ?_
    rintro ⟨⟨lo, hi⟩, world₁⟩ _ ⟨hlo, hhi, rfl⟩
    refine (arrayMap_refines (offers_range hlo hhi base) (length_numbers host hlo hhi) callback
      world₁).bind ?_
    rintro ⟨results, world₂⟩ ⟨array, memory⟩ h
    exact .ok h
  | filter callback =>
    rw [rangeOver, generateArrayMethod]
    refine (rangeBounds_refines start stop span base world).bind ?_
    rintro ⟨⟨lo, hi⟩, world₁⟩ _ ⟨hlo, hhi, rfl⟩
    refine (arrayFilter_refines (offers_range hlo hhi base) (length_numbers host hlo hhi) callback
      world₁).bind ?_
    rintro ⟨results, world₂⟩ ⟨array, memory⟩ h
    exact .ok h
  | reduce init callback =>
    rw [rangeOver, generateArrayMethod]
    refine (rangeBounds_refines start stop span base world).bind ?_
    rintro ⟨⟨lo, hi⟩, world₁⟩ _ ⟨hlo, hhi, rfl⟩
    refine (arrayReduce_refines (offers_range hlo hhi base) (length_numbers host hlo hhi) init
      callback world₁).bind ?_
    rintro ⟨value, world₂⟩ _ rfl
    exact .ok ⟨rfl, rfl⟩
  | each callback =>
    exact methodOfBuiltRange_refines host (.each callback) start stop span base world

/-- What the shape of a discarded `each` over a range is lowered to. -/
theorem lowerDiscardedRangeEach_range {start stop : Expression} {span : Span}
    (hreceiver : host.isArray (.range start stop span) = true) (callback : Expression)
    (callee site : Span) (memory : Memory V W) :
    lowerDiscardedRangeEach host
        (.call (.identifier "each" callee) [.range start stop span, callback] true site) memory =
      some ((rangeBounds host start stop span memory).bind fun (bounds, memory) =>
        arrayEach host callback (.range bounds.lo bounds.step) bounds.count memory) := by
  rw [lowerDiscardedRangeEach, if_pos hreceiver]

/-- Without the array, when nothing uses it. -/
theorem lowerDiscardedRangeEach_refines {callback : Expression} (start stop : Expression)
    (span callee site : Span) (hreceiver : host.isArray (.range start stop span) = true)
    (base : List (List (Option V))) (world : W) :
    ∃ run, lowerDiscardedRangeEach host
          (.call (.identifier "each" callee) [.range start stop span, callback] true site)
          ⟨base, world⟩ = some run ∧
      Refines (fun (result : Outcome V × W) (state : Unit × Memory V W) =>
          state.2.world = result.2)
        (rangeOver host (.each callback) start stop span world) run := by
  refine ⟨_, lowerDiscardedRangeEach_range hreceiver callback callee site ⟨base, world⟩, ?_⟩
  rw [rangeOver]
  refine (rangeBounds_refines start stop span base world).bind ?_
  rintro ⟨⟨lo, hi⟩, world₁⟩ _ ⟨hlo, hhi, rfl⟩
  refine (arrayEach_refines (offers_range hlo hhi base) (length_numbers host hlo hhi) callback
    world₁).lastLeft ?_
  rintro ⟨-, world₂⟩ _ rfl
  exact ⟨_, rfl, rfl⟩

theorem shows_world {outcome : Outcome V × W} {result : MethodValue V × Memory V W}
    (h : Shows outcome result) : result.2.world = outcome.2 := by
  obtain ⟨_ | _, _⟩ := outcome <;> obtain ⟨_ | _, _⟩ := result
  · exact h.1
  · exact h.elim
  · exact h.elim
  · exact h.1

/-- Two results that show the same outcome, with the world in the same state. -/
def SameOutcome (first second : MethodValue V × Memory V W) : Prop :=
  ∃ outcome : Outcome V × W, Shows outcome first ∧ Shows outcome second

/-- The array of a range: the whole numbers from one end to the other. -/
def HoldsRange (host : Host V W φ) (ends : (BitVec 64 × BitVec 64) × W)
    (array : ArrayStruct × Memory V W) : Prop :=
  array.2.world = ends.2 ∧ Holds (numbers host ends.1.1.toInt ends.1.2.toInt) array.1 array.2

theorem generateRange_holds (start stop : Expression) (span : Span) (memory : Memory V W) :
    Refines (HoldsRange host) (rangeEnds host start stop span memory.world)
      (generateRange host start stop span memory) := by
  refine (generateRange_refines start stop span memory.blocks memory.world).mono ?_
  rintro ⟨⟨lo, hi⟩, world₁⟩ _ ⟨hlo, hhi, rfl⟩
  refine ⟨rfl, length_numbers host hlo hhi, [], ?_⟩
  dsimp only
  rw [List.getElem?_append_right (Nat.le_refl _), Nat.sub_self, List.append_nil]
  rfl

theorem noOverflow_of_checked {formatNum : Num → String} {first last : Num} {lo hi : BitVec 64}
    (hlo : checkRangeEndpoint formatNum first = .ok lo)
    (hhi : checkRangeEndpoint formatNum last = .ok hi) : NoOverflow lo hi :=
  boundsOf_noOverflow (checkRangeEndpoint_ok hlo).1 (checkRangeEndpoint_ok hhi).1

/-- Whether a method iterates the bounds of a range or the array built from it, it is the same run
of the program, over the whole numbers between the ends. -/
theorem range_methods_agree (host : Host V W φ) (method : Method) (start stop : Expression)
    (span : Span) (memory : Memory V W) :
    Refines SameOutcome (methodOfBuiltRange host method start stop span memory)
        (generateArrayMethod host method start stop span memory) ∧
      (∀ callback callee site, host.isArray (.range start stop span) = true →
        ∃ run, lowerDiscardedRangeEach host
              (.call (.identifier "each" callee) [.range start stop span, callback] true site)
              memory = some run ∧
          Refines (fun built discarded => discarded.2.world = built.2.world)
            (methodOfBuiltRange host (.each callback) start stop span memory) run) ∧
      Refines Shows (rangeOver host method start stop span memory.world)
        (generateArrayMethod host method start stop span memory) ∧
      Refines (HoldsRange host) (rangeEnds host start stop span memory.world)
        (generateRange host start stop span memory) ∧
      (∀ expression memory, rangeEndpoint host expression span memory =
        evaluatedEndpoint host expression span memory) ∧
      (∀ before between between' after lo hi,
        rangeEndpoint host start span before = .ok (lo, between) →
        rangeEndpoint host stop span between' = .ok (hi, after) → NoOverflow lo hi) ∧
      ∀ first last lo hi, checkRangeEndpoint host.formatNum first = .ok lo →
        checkRangeEndpoint host.formatNum last = .ok hi → NoOverflow lo hi := by
  have hlazy := generateArrayMethod_refines host method start stop span memory.blocks
    memory.world
  refine ⟨(methodOfBuiltRange_refines host method start stop span memory.blocks
    memory.world).join hlazy,
    ?_, hlazy, generateRange_holds start stop span memory, fun _ _ => rangeEndpoint_eq, ?_, ?_⟩
  · intro callback callee site hreceiver
    obtain ⟨run, hlowered, hrun⟩ := lowerDiscardedRangeEach_refines start stop span callee site
      hreceiver memory.blocks memory.world
    refine ⟨run, hlowered, ?_⟩
    have hbuilt := methodOfBuiltRange_refines host (.each callback) start stop span
      memory.blocks memory.world
    refine (hbuilt.join hrun).mono ?_
    rintro built discarded ⟨outcome, hshows, hworld⟩
    exact hworld.trans (shows_world hshows).symm
  · intro before between between' after lo hi hlo hhi
    exact boundsOf_noOverflow (admitted_of_rangeEndpoint hlo) (admitted_of_rangeEndpoint hhi)
  · intro first last lo hi hlo hhi
    exact noOverflow_of_checked hlo hhi

/-- A program whose world is what its closures have been given. -/
def recorder : Host Num (List Num) Empty where
  nearest value := .finite value
  formatNum _ := ""
  ofNum x := x
  floatValue x := some x
  floatValue_ofNum _ := rfl
  valueToBoolean x := x ≠ .finite 0
  evaluate _ world := .ok (.finite 0, world)
  inlineBody _ _ arguments world := .ok (.finite 0, world ++ arguments)
  callClosure _ arguments world := .ok (.finite 0, world ++ arguments)
  isFunction _ := true
  isArray _ := true
  returnSize _ := none

/-- `(3 <- 1).each(f)`, discarded. -/
theorem range_methods_agree_descending :
    (∃ run, lowerDiscardedRangeEach recorder
          (.call (.identifier "each" ⟨9, 13, 0⟩) [.range (.number 3 ⟨1, 2, 0⟩) (.number 1 ⟨6, 7, 0⟩)
            ⟨1, 7, 0⟩, .identifier "f" ⟨14, 15, 0⟩] true ⟨0, 16, 0⟩) ⟨[], []⟩ = some run ∧
        Refines (fun built discarded => discarded.2.world = built.2.world)
          (methodOfBuiltRange recorder (.each (.identifier "f" ⟨14, 15, 0⟩)) (.number 3 ⟨1, 2, 0⟩)
            (.number 1 ⟨6, 7, 0⟩) ⟨1, 7, 0⟩ ⟨[], []⟩) run) ∧
      NoOverflow 3#64 1#64 := by
  have h := range_methods_agree recorder (.each (.identifier "f" ⟨14, 15, 0⟩))
    (.number 3 ⟨1, 2, 0⟩) (.number 1 ⟨6, 7, 0⟩) ⟨1, 7, 0⟩ ⟨[], []⟩
  exact ⟨h.2.1 _ _ _ rfl, h.2.2.2.2.2.2 (.finite 3) (.finite 1) 3#64 1#64 rfl rfl⟩

end Quilon.Ranges
