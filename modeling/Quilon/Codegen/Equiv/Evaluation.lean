import Quilon.Codegen.Evaluation
import Quilon.Library.Positions

/-!
# Operands are evaluated in the order they are written

`evaluation_in_order_iff`: the code of a program performs the effects of every operand once and in
the order they are written if and only if no expression of it is one of those the generator lowers
in an order of its own (`Orderly`).  What counts as an effect is a parameter (`Effects`).

The forms that matter are the reads of a record's field called `size` or `length`, which lower the
receiver twice; a field write, which lowers its value first; literals, which lower their fields in
the order of the type; and the primitives that read an options record field by field or bundle a
handler before they read an address.
-/

namespace Quilon

/-- Which expressions have effects.  Reading a variable or a constant has none. -/
structure Effects where
  effectful : Expression → Bool
  identifier : ∀ name span, effectful (.identifier name span) = false
  constant : ∀ e, (literalNumber e).isSome → effectful e = false

/-- The positions of the operands that have effects. -/
def acts (E : Effects) (g : Lookups) (e : Expression) : Nat → Bool :=
  meeting E.effectful (evaluated g e)

/-- Every path through the code performs the effects of the operands as a path of the source does. -/
def InOrder (E : Effects) (g : Lookups) (e : Expression) (orders : List Order) : Prop :=
  ∀ order ∈ orders, ∃ path ∈ written g e,
    order.filter (acts E g e) = path.filter (acts E g e)

/-- Of the fields that have effects, the one written first is declared first. -/
def InDeclaredOrder (E : Effects) (declared : List String)
    (fields : List (String × Expression)) : Prop :=
  (∀ field ∈ fields, E.effectful field.2.unspread → field.1 ∈ declared) ∧
    fields.Pairwise fun a b => E.effectful a.2.unspread → E.effectful b.2.unspread →
      Precedes Prod.fst declared a b

/-- The arguments of a primitive have effects only where it takes them in order. -/
def OrderlyArguments (E : Effects) (primitive : String) (arguments : List Expression) : Prop :=
  match primitive, arguments with
  | "tcpRequest", [_, _, options] => E.effectful options = false
  | "tcpServe", [address, handler] | "serve", [address, handler] =>
    ¬ (E.effectful address ∧ E.effectful handler)
  | "serve", [address, handler, options] =>
    E.effectful options = false ∧ ¬ (E.effectful address ∧ E.effectful handler)
  | _, _ => True

/-- The effects of the operands do not depend on the order the generator lowers them in. -/
def Orderly (E : Effects) (g : Lookups) (e : Expression) : Prop :=
  match e with
  | .fieldAccess receiver field _ =>
    field = "size" ∨ field = "length" → (fieldNames g receiver).any (·.contains field) →
      E.effectful receiver = false
  | .fieldAssign (.fieldAccess object _ _) value _ => ¬ (E.effectful object ∧ E.effectful value)
  | .record fields _ | .constructor _ fields _ =>
    ∀ declared, fieldOrder g e = some declared → InDeclaredOrder E declared fields
  | .call (.identifier name _) arguments _ _ =>
    ∀ primitive, atPrimitiveName name = some primitive → OrderlyArguments E primitive arguments
  | _ => True

/-- What the checker makes sure of: neither a type nor a literal names a field twice. -/
def DistinctFields (g : Lookups) (e : Expression) : Prop :=
  ∀ declared, fieldOrder g e = some declared →
    declared.Nodup ∧ (e.fields.map Prod.fst).Nodup

variable {E : Effects} {g : Lookups}

/-! ### Paths -/

/-- Code that takes only paths of the source is in order. -/
theorem inOrder_of_subset {e : Expression} {orders : List Order}
    (h : ∀ order ∈ orders, order ∈ written g e) : InOrder E g e orders :=
  fun order horder => ⟨order, h order horder, rfl⟩

/-- An expression with one path in the source and one in the code. -/
theorem inOrder_singleton {e : Expression} {order : Order} (path : Order)
    (hwritten : written g e = [path]) :
    InOrder E g e [order] ↔ order.filter (acts E g e) = path.filter (acts E g e) := by
  simp [InOrder, hwritten]

theorem meeting_map {α β : Type*} (p : β → Bool) (f : α → β) (entries : List α) :
    meeting p (entries.map f) = meeting (p ∘ f) entries := by
  funext i
  unfold meeting
  rw [List.getElem?_map]
  cases entries[i]? <;> rfl

/-! ### Field reads -/

theorem not_identifier_of_effectful {e : Expression} (h : E.effectful e = true) (name : String)
    (span : Span) : e ≠ .identifier name span := by
  rintro rfl
  rw [E.identifier] at h
  cases h

/-- Only a variable is read in place. -/
theorem isInPlaceSize_eq_false {e : Expression} (h : E.effectful e = true) (field : String) :
    isInPlaceSize g e field = false := by
  have hne := not_identifier_of_effectful h
  unfold isInPlaceSize
  cases e <;> simp_all

/-- A field that is no size is read once. -/
theorem generateFieldAccess_eq_one {e : Expression} {field : String} {times : Nat}
    (hsize : field ≠ "size") (hlength : field ≠ "length")
    (h : generateFieldAccess g e field = some times) : times = 1 := by
  unfold generateFieldAccess at h
  have hvalue : isSizeOfValue g e field = false := by simp [isSizeOfValue, hsize, hlength]
  have hplace : isInPlaceSize g e field = false := by simp [isInPlaceSize, hsize]
  rw [hvalue, hplace] at h
  split at h
  · exact (Option.some.inj h).symm
  · split at h
    · exact (Option.some.inj h).symm
    · simp at h
      omega

/-- The receiver of a record's `size` or `length` is lowered twice. -/
theorem generateFieldAccess_eq_two {e : Expression} {field : String}
    (heffectful : E.effectful e = true) (hfield : field = "size" ∨ field = "length")
    (hnames : (fieldNames g e).any (·.contains field) = true) :
    generateFieldAccess g e field = some 2 := by
  have hne := not_identifier_of_effectful heffectful
  have hplace := isInPlaceSize_eq_false (g := g) heffectful field
  have hpayload : isPayloadAccess g e field = false := by
    rcases hfield with rfl | rfl <;> rfl
  have hvariable : isNamedRecordField g e field = false := by
    unfold isNamedRecordField
    cases e <;> simp_all
  have hvalue : isSizeOfValue g e field = true := by
    simp [isSizeOfValue, hvariable, hfield]
  -- The fields are those of the receiver's type, so it is a record.
  have hrecord : isCollectionSize g e field = false ∧ (g.types e.span).any Ty.isStruct = false := by
    unfold fieldNames at hnames
    unfold isCollectionSize
    split at hnames
    case h_1 heq => simp [heq, Ty.isStruct]
    case h_2 heq => simp [heq, Ty.isStruct]
    case h_3 => cases e <;> simp_all
  unfold generateFieldAccess
  rw [hpayload, hrecord.1, hplace, hvalue, hrecord.2, hnames]
  rfl

theorem generateFieldAccess_cases {e : Expression} {field : String} {times : Nat}
    (heffectful : E.effectful e = true) (h : generateFieldAccess g e field = some times) :
    times = 1 ∨ (field = "size" ∨ field = "length") ∧
      (fieldNames g e).any (·.contains field) = true := by
  by_cases hfield : field = "size" ∨ field = "length"
  · by_cases hnames : (fieldNames g e).any (·.contains field) = true
    · exact .inr ⟨hfield, hnames⟩
    · unfold generateFieldAccess at h
      rw [isInPlaceSize_eq_false heffectful] at h
      simp only [hnames, Bool.false_eq_true, if_false] at h
      split_ifs at h <;> exact .inl (Option.some.inj h).symm
  · push Not at hfield
    exact .inl (generateFieldAccess_eq_one hfield.1 hfield.2 h)

theorem inOrder_fieldAccess_iff {e : Expression} {field : String} {span : Span} {times : Nat}
    (h : generateFieldAccess g e field = some times) :
    InOrder E g (.fieldAccess e field span) [List.replicate times 0] ↔
      Orderly E g (.fieldAccess e field span) := by
  have hacts : acts E g (.fieldAccess e field span) 0 = E.effectful e := rfl
  rw [inOrder_singleton [0] rfl, Orderly]
  by_cases heffectful : E.effectful e = true
  · rw [List.filter_replicate_of_pos (hacts.trans heffectful),
      List.filter_singleton, hacts, heffectful]
    constructor
    · intro heq hfield hnames
      have htwo := generateFieldAccess_eq_two heffectful hfield hnames
      obtain rfl := Option.some.inj (h.symm.trans htwo)
      cases heq
    · intro hsilent
      rcases generateFieldAccess_cases heffectful h with rfl | ⟨hfield, hnames⟩
      · rfl
      · exact absurd (hsilent hfield hnames) (by simp)
  · have hsilent : E.effectful e = false := by simpa using heffectful
    rw [List.filter_replicate_of_neg (by simp [hacts, hsilent])]
    simp [hacts, hsilent]

/-! ### Field writes -/

theorem inOrder_fieldAssign_iff {object value : Expression} {field : String}
    {fieldSpan span : Span} :
    InOrder E g (.fieldAssign (.fieldAccess object field fieldSpan) value span) [[1, 0]] ↔
      Orderly E g (.fieldAssign (.fieldAccess object field fieldSpan) value span) := by
  set e := Expression.fieldAssign (.fieldAccess object field fieldSpan) value span with he
  have hobject : acts E g e 0 = E.effectful object := rfl
  have hvalue : acts E g e 1 = E.effectful value := rfl
  rw [inOrder_singleton [0, 1] rfl]
  show _ ↔ ¬ (E.effectful object ∧ E.effectful value)
  cases hobject' : E.effectful object <;> cases hvalue' : E.effectful value <;>
    simp [hobject, hvalue, hobject', hvalue']

/-! ### Literals -/

/-- Fields taken in the order of the type come in order exactly when those with effects are written
in that order. -/
theorem inOrder_declarationOrder_iff {e : Expression} {declared : List String}
    {fields : List (String × Expression)}
    (hevaluated : evaluated g e = fields.map fun field => field.2.unspread)
    (hwritten : written g e = [inOrder g e]) (hdeclared : declared.Nodup)
    (hfields : (fields.map Prod.fst).Nodup) :
    InOrder E g e [declarationOrder declared fields] ↔ InDeclaredOrder E declared fields := by
  have hacts : acts E g e = meeting (fun field => E.effectful field.2.unspread) fields := by
    unfold acts
    rw [hevaluated, meeting_map]
    rfl
  have hrange : inOrder g e = List.range fields.length := by
    unfold inOrder
    rw [hevaluated, List.length_map]
  rw [inOrder_singleton _ hwritten, hacts, hrange]
  exact filter_positions_eq_iff hdeclared hfields _

theorem inOrder_literal_iff {e : Expression} {fields : List (String × Expression)}
    (hevaluated : evaluated g e = fields.map fun field => field.2.unspread)
    (hfields : e.fields = fields)
    (hwritten : written g e = [inOrder g e]) (hchecked : DistinctFields g e) :
    InOrder E g e [((fieldOrder g e).map (declarationOrder · fields)).getD (inOrder g e)] ↔
      ∀ declared, fieldOrder g e = some declared → InDeclaredOrder E declared fields := by
  cases horder : fieldOrder g e with
  | none =>
    have hpath : InOrder E g e [inOrder g e] := inOrder_of_subset (by simp [hwritten])
    simpa using hpath
  | some declared =>
    obtain ⟨hdeclared, hnames⟩ := hchecked declared horder
    rw [hfields] at hnames
    simpa using inOrder_declarationOrder_iff hevaluated hwritten hdeclared hnames

/-! ### Ranges -/

theorem filter_rangeEndpoint {p : Nat → Bool} {end_ : Expression} {position : Nat}
    (hposition : p position = E.effectful end_) :
    (rangeEndpoint end_ position).filter p = [position].filter p := by
  unfold rangeEndpoint
  split
  case isTrue hconstant =>
    have hsome : (literalNumber end_).isSome := by
      cases hnumber : literalNumber end_ <;> simp_all
    have hsilent := E.constant end_ hsome
    simp [hposition, hsilent]
  case isFalse => rfl

/-- A constant end that is not lowered has no effect to perform. -/
theorem inOrder_range {start stop : Expression} {span : Span} :
    InOrder E g (.range start stop span) [rangeEndpoint start 0 ++ rangeEndpoint stop 1] := by
  rw [inOrder_singleton ([0] ++ [1]) rfl, List.filter_append, List.filter_append,
    filter_rangeEndpoint (E := E) rfl, filter_rangeEndpoint (E := E) rfl]

/-! ### Calls -/

theorem readField_eq {arguments : List Expression} {position : Nat} {field : String}
    {order : Order} (hsize : field ≠ "size") (hlength : field ≠ "length")
    (h : readField g arguments position field = some order) : order = [position] := by
  unfold readField at h
  obtain ⟨argument, _, h⟩ := Option.bind_eq_some_iff.mp h
  obtain ⟨times, htimes, rfl⟩ := Option.map_eq_some_iff.mp h
  rw [generateFieldAccess_eq_one hsize hlength htimes]
  rfl

theorem atPrimitiveName_of_isAssertion {name : String} (h : isAssertion name = true) :
    atPrimitiveName name = none := by
  have hname : name = ASSERT ∨ name = "expect" := by simpa [isAssertion] using h
  rcases hname with rfl | rfl <;> decide

/-- A primitive takes the arguments as they are written. -/
theorem evaluated_primitive {name primitive : String} {arguments : List Expression}
    {memberCall : Bool} {nameSpan span : Span} (h : atPrimitiveName name = some primitive) :
    evaluated g (.call (.identifier name nameSpan) arguments memberCall span) = arguments := by
  have hassertion : isAssertion name = false := by
    by_contra hname
    rw [atPrimitiveName_of_isAssertion (by simpa using hname)] at h
    cases h
  simp [evaluated, callOperands, hassertion, h]

theorem written_primitive {name primitive : String} {arguments : List Expression}
    {memberCall : Bool} {nameSpan span : Span} (h : atPrimitiveName name = some primitive) :
    written g (.call (.identifier name nameSpan) arguments memberCall span) =
      [List.range arguments.length] := by
  have hname : name ≠ "expect" := by
    rintro rfl
    have hnone : atPrimitiveName "expect" = none := by decide
    rw [hnone] at h
    cases h
  simp only [written, inOrder, evaluated_primitive h]
  simp [hname]

/-- An operand that is read field by field, last. -/
theorem filter_read_twice_iff {p : Nat → Bool} :
    [0, 1, 2, 2].filter p = [0, 1, 2].filter p ↔ p 2 = false := by
  cases h0 : p 0 <;> cases h1 : p 1 <;> cases h2 : p 2 <;> simp [h0, h1, h2]

/-- A handler that is bundled before the address is read. -/
theorem filter_handler_first_iff {p : Nat → Bool} :
    [1, 0].filter p = [0, 1].filter p ↔ ¬ (p 0 = true ∧ p 1 = true) := by
  cases h0 : p 0 <;> cases h1 : p 1 <;> simp [h0, h1]

theorem filter_handler_first_options_iff {p : Nat → Bool} :
    [1, 2, 2, 0].filter p = [0, 1, 2].filter p ↔
      p 2 = false ∧ ¬ (p 0 = true ∧ p 1 = true) := by
  cases h0 : p 0 <;> cases h1 : p 1 <;> cases h2 : p 2 <;> simp [h0, h1, h2]

theorem filter_generateAtPrimitive_iff {primitive : String} {arguments : List Expression}
    {order : Order} (h : generateAtPrimitive g primitive arguments = some order) :
    order.filter (meeting E.effectful arguments) =
        (List.range arguments.length).filter (meeting E.effectful arguments) ↔
      OrderlyArguments E primitive arguments := by
  unfold generateAtPrimitive at h
  split at h
  case h_1 hlength =>
    obtain rfl := Option.some.inj h
    rw [hlength]
    simp [OrderlyArguments, List.range_succ]
  case h_2 hlength =>
    obtain rfl := Option.some.inj h
    rw [hlength]
    simp [OrderlyArguments]
  case h_3 hlength =>
    obtain rfl := Option.some.inj h
    obtain ⟨a, b, rfl⟩ := List.length_eq_two.mp hlength
    exact iff_of_true rfl trivial
  case h_4 hlength =>
    obtain ⟨a, b, c, rfl⟩ := List.length_eq_three.mp hlength
    obtain ⟨transport, htransport, h⟩ := Option.bind_eq_some_iff.mp h
    obtain ⟨certificates, hcertificates, h⟩ := Option.bind_eq_some_iff.mp h
    obtain rfl := readField_eq (by decide) (by decide) htransport
    obtain rfl := readField_eq (by decide) (by decide) hcertificates
    obtain rfl := Option.some.inj h
    exact filter_read_twice_iff
  case h_5 hlength =>
    obtain rfl := Option.some.inj h
    obtain ⟨a, b, c, rfl⟩ := List.length_eq_three.mp hlength
    exact iff_of_true rfl trivial
  case h_6 hlength | h_7 hlength =>
    obtain rfl := Option.some.inj h
    obtain ⟨a, b, rfl⟩ := List.length_eq_two.mp hlength
    exact filter_handler_first_iff
  case h_8 hlength =>
    obtain ⟨a, b, c, rfl⟩ := List.length_eq_three.mp hlength
    obtain ⟨maxBodySize, hsize, h⟩ := Option.bind_eq_some_iff.mp h
    obtain ⟨idleTimeout, htimeout, h⟩ := Option.bind_eq_some_iff.mp h
    obtain rfl := readField_eq (by decide) (by decide) hsize
    obtain rfl := readField_eq (by decide) (by decide) htimeout
    obtain rfl := Option.some.inj h
    exact filter_handler_first_options_iff
  case h_9 hlength =>
    obtain rfl := readField_eq (by decide) (by decide) h
    obtain ⟨a, rfl⟩ := List.length_eq_one_iff.mp hlength
    exact iff_of_true rfl trivial
  case h_10 hlength | h_11 hlength =>
    obtain ⟨handle, hhandle, rfl⟩ := Option.map_eq_some_iff.mp h
    obtain rfl := readField_eq (by decide) (by decide) hhandle
    obtain ⟨a, b, rfl⟩ := List.length_eq_two.mp hlength
    exact iff_of_true rfl trivial
  case h_12 => cases h

theorem inOrder_primitive_iff {name primitive : String} {arguments : List Expression}
    {memberCall : Bool} {nameSpan span : Span} {order : Order}
    (hname : atPrimitiveName name = some primitive)
    (h : generateAtPrimitive g primitive arguments = some order) :
    InOrder E g (.call (.identifier name nameSpan) arguments memberCall span) [order] ↔
      Orderly E g (.call (.identifier name nameSpan) arguments memberCall span) := by
  rw [inOrder_singleton _ (written_primitive hname)]
  unfold acts
  rw [evaluated_primitive hname, filter_generateAtPrimitive_iff h]
  simp [Orderly, hname]

theorem inOrder_generateCall_iff {function : Expression} {arguments : List Expression}
    {memberCall : Bool} {span : Span} {orders : List Order}
    (h : generateCall g function arguments memberCall span = some orders) :
    InOrder E g (.call function arguments memberCall span) orders ↔
      Orderly E g (.call function arguments memberCall span) := by
  unfold generateCall at h
  dsimp only at h
  split at h
  case h_1 name nameSpan =>
    split at h
    case isTrue hassertion =>
      -- An assertion is no primitive, and an `expect` has the path around its operands.
      rw [Option.ite_none_right_eq_some] at h
      obtain ⟨_, h⟩ := h
      obtain rfl := Option.some.inj h
      have hname : isAssertion name = true := by simp_all
      refine iff_of_true (inOrder_of_subset ?_) ?_
      · have hcases : name = ASSERT ∨ name = "expect" := by simpa [isAssertion] using hname
        have hmember : memberCall = false := by simp_all
        rcases hcases with rfl | rfl
        · simp [written, inOrder, evaluated, ASSERT, hmember]
        · simp [written, inOrder, evaluated, ASSERT, hmember]
      · simp [Orderly, atPrimitiveName_of_isAssertion hname]
    case isFalse hassertion =>
      split at h
      case h_1 primitive hprimitive =>
        obtain ⟨order, horder, rfl⟩ := Option.map_eq_some_iff.mp h
        exact inOrder_primitive_iff hprimitive horder
      case h_2 hprimitive =>
        obtain rfl := Option.some.inj h
        refine iff_of_true (inOrder_of_subset ?_) ?_
        · simp only [written, inOrder, evaluated]
          split <;> simp
        · simp [Orderly, hprimitive]
  case h_2 hfunction =>
    obtain rfl := Option.some.inj h
    have hwritten : written g (.call function arguments memberCall span) =
        [List.range (callOperands g function arguments memberCall span).length] := by
      unfold written
      split <;> simp_all [inOrder, evaluated]
    refine iff_of_true (inOrder_of_subset (by simp [hwritten])) ?_
    unfold Orderly
    split <;> simp_all

/-! ### Expressions -/

theorem inOrder_lowered_iff {e : Expression} {orders : List Order}
    (hchecked : DistinctFields g e) (h : lowered g e = some orders) :
    InOrder E g e orders ↔ Orderly E g e := by
  unfold lowered at h
  split at h
  case h_1 => cases h
  case h_2 => exact inOrder_generateCall_iff h
  case h_3 =>
    obtain ⟨times, htimes, rfl⟩ := Option.map_eq_some_iff.mp h
    exact inOrder_fieldAccess_iff htimes
  case h_4 =>
    obtain rfl := Option.some.inj h
    exact inOrder_fieldAssign_iff
  case h_5 => cases h
  case h_6 =>
    obtain rfl := Option.some.inj h
    exact iff_of_true (inOrder_of_subset (by simp [written, inOrder, evaluated, List.range_succ]))
      trivial
  case h_7 => cases h
  case h_8 | h_9 =>
    obtain rfl := Option.some.inj h
    exact inOrder_literal_iff rfl rfl rfl hchecked
  case h_10 =>
    obtain rfl := Option.some.inj h
    exact iff_of_true inOrder_range trivial
  case h_11 scrutinee arms span =>
    obtain rfl := Option.some.inj h
    refine iff_of_true (inOrder_of_subset fun order horder => ?_) trivial
    show order ∈ [0] :: (List.range arms.length).map fun arm => [0, arm + 1]
    split at horder
    · exact List.mem_cons_of_mem _ horder
    · exact horder
  case h_12 _ hcall hread hwrite _ _ _ hrecord hconstructor _ _ =>
    obtain rfl := Option.some.inj h
    refine iff_of_true (inOrder_of_subset fun order horder => horder) ?_
    unfold Orderly
    split
    · exact absurd rfl (hread _ _ _)
    · exact absurd rfl (hwrite _ _ _ _ _)
    · exact absurd rfl (hrecord _ _)
    · exact absurd rfl (hconstructor _ _ _)
    · exact absurd rfl (hcall _ _ _ _)
    · trivial

/-- The code of a program performs the effects of each operand once and in the order they are written
if and only if no expression of it is lowered in an order of its own. -/
theorem evaluation_in_order_iff (E : Effects) (program : Program) (g : Expression → Lookups)
    (hchecked : ∀ e, program.Evaluates e → DistinctFields (g e) e) :
    (∀ e orders, program.Evaluates e → lowered (g e) e = some orders → InOrder E (g e) e orders) ↔
      ∀ e, program.Evaluates e → (lowered (g e) e).isSome → Orderly E (g e) e := by
  constructor
  · intro hcode e he hsome
    obtain ⟨orders, horders⟩ := Option.isSome_iff_exists.mp hsome
    exact (inOrder_lowered_iff (hchecked e he) horders).mp (hcode e orders he horders)
  · intro horderly e orders he horders
    have hsome : (lowered (g e) e).isSome := by simp [horders]
    exact (inOrder_lowered_iff (hchecked e he) horders).mpr (horderly e he hsome)

/-! ### A field called `size` -/

namespace SizeRead

def place (start : Nat) : Span := ⟨start, start + 1, 0⟩

/-- `Box { size = 1 }` -/
def box : Expression := .constructor "Box" [("size", .number 1 (place 1))] (place 0)

/-- `make()` -/
def made : Expression := .call (.identifier "make" (place 11)) [] false (place 12)

/-- `make().size` -/
def size : Expression := .fieldAccess made "size" (place 13)

def declare (name : String) (body : Expression) (start : Nat) : Item :=
  .functionDeclaration ⟨name, [], none, none, body, false, false, place start⟩

/-- `make = () => Box { size = 1 }` and `^ = () => make().size`. -/
def program : Program where
  items := [declare "make" box 20, declare "^" size 30]

/-- `Box` declares `size`, and the receiver of the read is a `Box`. -/
def lookups : Lookups where
  types span := if span = made.span then some (.named "Box" [("size", .num)] []) else none
  variableTable := []
  structVariables := []
  globals := []
  recordTypes _ := none
  namedTypeFields name := if name = "Box" then some ["size"] else none
  sumLayouts := []
  forceSites _ := false
  userOperator _ := false
  methodCallee _ := false
  closureCallee _ := false

/-- Calls have effects. -/
def effects : Effects where
  effectful
    | .call _ _ _ _ => true
    | _ => false
  identifier _ _ := rfl
  constant e h := by
    unfold literalNumber at h
    split at h <;> simp_all

theorem evaluates_iff {e : Expression} : program.Evaluates e →
    e = box ∨ e = .number 1 (place 1) ∨ e = size ∨ e = made ∨
      e = .identifier "make" (place 11) := by
  rintro ⟨item, hitem, root, hroot, he⟩
  have hroots : root = box ∨ root = size := by
    have hitems : item = declare "make" box 20 ∨ item = declare "^" size 30 := by
      simpa [program] using hitem
    rcases hitems with rfl | rfl
    · exact .inl (List.mem_singleton.mp hroot)
    · exact .inr (List.mem_singleton.mp hroot)
  induction he with
  | refl => rcases hroots with rfl | rfl <;> simp
  | part _ hc ih =>
    rcases ih with rfl | rfl | rfl | rfl | rfl <;>
      simp [Expression.parts, Expression.children, box, size, made] at hc <;> simp [hc, made]

theorem distinctFields {e : Expression} (h : program.Evaluates e) : DistinctFields lookups e := by
  intro declared horder
  rcases evaluates_iff h with rfl | rfl | rfl | rfl | rfl
  · obtain rfl : ["size"] = declared := Option.some.inj horder
    exact ⟨by decide, by decide⟩
  all_goals cases horder

end SizeRead

theorem evaluation_in_order_iff_size :
    (∀ e orders, SizeRead.program.Evaluates e →
      lowered SizeRead.lookups e = some orders →
        InOrder SizeRead.effects SizeRead.lookups e orders) ↔
      ∀ e, SizeRead.program.Evaluates e → (lowered SizeRead.lookups e).isSome →
        Orderly SizeRead.effects SizeRead.lookups e :=
  evaluation_in_order_iff SizeRead.effects SizeRead.program (fun _ => SizeRead.lookups)
    fun _ h => SizeRead.distinctFields h

/-- The code calls `make` twice. -/
theorem size_evaluated_twice :
    SizeRead.program.Evaluates SizeRead.size ∧
      lowered SizeRead.lookups SizeRead.size = some [[0, 0]] ∧
      ¬ InOrder SizeRead.effects SizeRead.lookups SizeRead.size [[0, 0]] := by
  refine ⟨⟨SizeRead.declare "^" SizeRead.size 30, by simp [SizeRead.program], SizeRead.size, ?_,
    .refl⟩, rfl, ?_⟩
  · simp [SizeRead.declare, Item.bodies]
  · rw [inOrder_singleton [0] rfl]
    decide

end Quilon
