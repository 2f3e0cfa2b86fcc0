import Quilon.Codegen.Rendering
import Mathlib.Data.List.Nodup
import Mathlib.Data.List.Perm.Basic

/-!
# What is rendered

`Reference` renders by the table of the language: a collection in full up to ten items and else as
its first and last one, each of them as it was when the rendering of the collection began, and each
by the render member of its type or else by the default.

* `rendering_iff`: the emitted code runs as the reference does (the same text or failure, the same
  items read in the same order, and the same memory behind) exactly where the run of the reference
  leaves each item in its place until it is read (`untouched`);
* `removed_while_rendered`: a render member that removes from the map it is called from, and the
  emitted code then reads behind the end of the map;
* `untouched_of_quiet`: render members that change no collection leave every item in its place.
-/

namespace Quilon.Rendering

open Collections TracedM

variable {users : UserKeys Value} {finish : UInt8 → Written → UInt64} {State : Type}

/-! ### The reference -/

namespace Reference

/-- The items that are shown of so many. -/
def shown (n : Nat) : List Nat := if n ≤ 10 then List.range n else [0, n - 1]

def separator (n : Nat) : Text := textLiteral (if n ≤ 10 then ", " else " <- ")

def delimited (opening closing : String) (n : Nat)
    (item : Nat → Emitted users finish State Text) : Emitted users finish State Text := do
  let texts ← each item (shown n)
  return textLiteral opening ++ (separator n).intercalate texts ++ textLiteral closing

/-- The items of a map or a set. -/
def collection (empty : String) (n : Nat) (item : Nat → Emitted users finish State Text) :
    Emitted users finish State Text :=
  if n = 0 then return textLiteral empty else delimited "[|" "|]" n item

section Items

variable (memory : Memory users finish State)

/-- An element of an array as `memory` has it. -/
def element (data i : Nat) : Emitted users finish State Value :=
  TracedM.visit (.element data i) .pastEnd (memory.element data i)

def key (address i : Nat) : Emitted users finish State (Key Value) :=
  TracedM.visit (.key address i) .pastEnd (memory.key address i)

def value (address i : Nat) : Emitted users finish State Value :=
  TracedM.visit (.value address i) .pastEnd (memory.value address i)

def item (address i : Nat) : Emitted users finish State (Key Value) :=
  TracedM.visit (.item address i) .pastEnd (memory.item address i)

end Items

variable (host : Host users finish State)

/-- The name of the variant whose tag the value carries, as it is written. -/
def variantName (typeName : String) : Value → Emitted users finish State Text
  | .sum tag _ =>
    match host.sumVariants.entries.find? fun entry =>
      entry.2.2 == typeName && entry.2.1 == tag with
    | some entry => return textLiteral (displayName entry.1)
    | none => return textLiteral "?"
  | _ => throw .illTyped

/-- By the type's render member, or else as `default`. -/
def byMember (name : String) (value : Value) (default : Emitted users finish State Text) :
    Emitted users finish State Text :=
  if host.renderOverrides.contains name then callRenderOverride host name value else default

/-- A value of any type. -/
def render : Ty → Value → Emitted users finish State Text
  | .num, .num bits | .generic _, .num bits => return host.numToText bits
  | .bool, .bool b => return textLiteral (if b then "True" else "False")
  | .text, .text bytes => return bytes
  | .unit, _ => return textLiteral "$"
  | .named name _ _, v => byMember host name v (return textLiteral name)
  | .record _, _ => return textLiteral "record"
  | .sum name _, v => byMember host name v (variantName host name v)
  | .array elem, .array data size => do
    let memory ← world
    delimited "[" "]" size fun i => do
      let v ← element memory data i
      render elem v
  | .map keyType valueType, .map address => do
    let memory ← world
    match memory.mapHeader address with
    | none => throw .noCollection
    | some header =>
      collection "[|=>|]" (mapLen header) fun i => do
        let k ← key memory address i
        let keyText ← render keyType (keyFromWords k)
        let v ← value memory address i
        let valueText ← render valueType v
        return keyText ++ textLiteral " => " ++ valueText
  | .set elem, .set address => do
    let memory ← world
    match memory.setHeader address with
    | none => throw .noCollection
    | some header =>
      collection "[||]" (setLen header) fun i => do
        let k ← item memory address i
        render elem (keyFromWords k)
  | .function _ _, _ => return textLiteral "<function>"
  | _, _ => throw .illTyped

/-- The default of a declared type. -/
def default (ty : Ty) (v : Value) : Emitted users finish State Text :=
  match ty with
  | .named name _ _ => return textLiteral name
  | .sum name _ => variantName host name v
  | _ => render host ty v

/-- Whether the expression is the receiver of the render member of the type, in that member. -/
def denotesReceiver (member : Option String) (ty : Ty) : Expression → Bool
  | .identifier name _ => name == RECEIVER && member.isSome && declaredName ty == member
  | _ => false

variable (member : Option String)

/-- A hole, or what is printed, in the code of a render member or elsewhere. -/
def expression (e : Expression) : Emitted users finish State Text :=
  match host.oracleType e with
  | none => throw .untyped
  | some ty => do
    let v ← evaluate host e
    if denotesReceiver member ty e then default host ty v else render host ty v

def part : InterpolationPart → Emitted users finish State Text
  | .literal s => return textLiteral s
  | .hole e => expression host member e

def interpolation (parts : List InterpolationPart) : Emitted users finish State Text := do
  let texts ← each (part host member) parts
  return texts.flatten

end Reference

/-! ### Items that stay in their places -/

/-- The states of the program before a rendering, or between two steps of one. -/
abbrev Before (users : UserKeys Value) (finish : UInt8 → Written → UInt64) (State : Type) :=
  Traced Event (Memory users finish State)

section Untouched

variable (host : Host users finish State)

/-- In the run of the reference, each item still stands in its place when its turn comes. -/
def untouched : Ty → Value → Before users finish State → Prop
  | .array elem, .array data size => fun start =>
    let element := Reference.element start.world data
    eachThen
      (fun i => andThen (fun s => s.world.element data i = start.world.element data i) (element i)
        fun v => untouched elem v)
      (fun i => do
        let v ← element i
        Reference.render host elem v)
      (Reference.shown size) start
  | .map keyType valueType, .map address => fun start =>
    let key := Reference.key start.world address
    let value := Reference.value start.world address
    eachThen
      (fun i => andThen (fun s => s.world.key address i = start.world.key address i) (key i)
        fun k => andThen (untouched keyType (keyFromWords k))
          (Reference.render host keyType (keyFromWords k))
          fun _ => andThen (fun s => s.world.value address i = start.world.value address i)
            (value i)
            fun v => untouched valueType v)
      (fun i => do
        let k ← key i
        let keyText ← Reference.render host keyType (keyFromWords k)
        let v ← value i
        let valueText ← Reference.render host valueType v
        return keyText ++ textLiteral " => " ++ valueText)
      (Reference.shown (((start.world.mapHeader address).map mapLen).getD 0)) start
  | .set elem, .set address => fun start =>
    let item := Reference.item start.world address
    eachThen
      (fun i => andThen (fun s => s.world.item address i = start.world.item address i) (item i)
        fun k => untouched elem (keyFromWords k))
      (fun i => do
        let k ← item i
        Reference.render host elem (keyFromWords k))
      (Reference.shown (((start.world.setHeader address).map setLen).getD 0)) start
  | _, _ => fun _ => True

variable (member : Option String)

/-- `untouched`, of what is rendered of an expression. -/
def expressionUntouched (e : Expression) : Before users finish State → Prop :=
  match host.oracleType e with
  | none => fun _ => True
  | some ty =>
    andThen (fun _ => True) (evaluate host e) fun v s =>
      Reference.denotesReceiver member ty e = true ∨ untouched host ty v s

def partUntouched : InterpolationPart → Before users finish State → Prop
  | .literal _ => fun _ => True
  | .hole e => expressionUntouched host member e

def interpolationUntouched (parts : List InterpolationPart) : Before users finish State → Prop :=
  eachThen (partUntouched host member) (Reference.part host member) parts

end Untouched

/-! ### Loops -/

section Loops

variable {item item' : Nat → Emitted users finish State Text}

theorem intercalate_cons (separator t : Text) (texts : List Text) :
    separator.intercalate (t :: texts) = t ++ texts.flatMap (separator ++ ·) := by
  induction texts generalizing t with
  | nil => simp
  | cons u texts ih => simp [List.intercalate_cons_cons, ih]

/-- Behind the first item, the loop puts a separator before each. -/
theorem appendItems_succ (item : Nat → Emitted users finish State Text) (i left : Nat)
    (acc : Text) :
    appendItems item (i + 1) left acc = (do
      let texts ← each item (List.range' (i + 1) left)
      return acc ++ texts.flatMap (textLiteral ", " ++ ·)) := by
  induction left generalizing i acc with
  | zero => simp [appendItems, each]
  | succ left ih =>
    rw [appendItems, List.range'_succ, each]
    simp [ih]

theorem appendItems_zero (item : Nat → Emitted users finish State Text) (n : Nat) (acc : Text) :
    appendItems item 0 n acc = (do
      let texts ← each item (List.range n)
      return acc ++ (textLiteral ", ").intercalate texts) := by
  rw [List.range_eq_range']
  cases n with
  | zero => simp [appendItems, each]
  | succ n =>
    rw [appendItems, List.range'_succ, each]
    simp [appendItems_succ, intercalate_cons]

theorem appendEnds_eq (item : Nat → Emitted users finish State Text) (n : Nat) (acc : Text) :
    appendEnds item n acc = (do
      let texts ← each item [0, n - 1]
      return acc ++ (textLiteral " <- ").intercalate texts) := by
  rw [appendEnds]
  simp [each]

/-- What `render_array` emits shows what the reference does. -/
theorem renderElements_eq (size : Nat) (item : Nat → Emitted users finish State Text) :
    renderElements size item = Reference.delimited "[" "]" size item := by
  rw [renderElements, Reference.delimited, Reference.shown, Reference.separator]
  by_cases hsmall : size ≤ 10
  · simp [hsmall, appendItems_zero]
  · simp [hsmall, appendEnds_eq]

theorem renderJoined_eq (n : Nat) (empty : String) (item : Nat → Emitted users finish State Text) :
    renderJoined n empty item = Reference.collection empty n item := by
  rw [renderJoined, Reference.collection, Reference.delimited, Reference.shown,
    Reference.separator]
  by_cases hsmall : n ≤ 10
  · simp [hsmall, appendItems_zero]
  · simp [hsmall, appendEnds_eq]

end Loops

/-! ### Variants -/

/-- Where no two items have one key, the order of a list makes no difference to a search by key. -/
theorem find?_eq_of_perm {α β : Type} [BEq β] [LawfulBEq β] {f : α → β} {l l' : List α}
    (hperm : l.Perm l') (hnodup : (l.map f).Nodup) (b : β) :
    (l.find? fun a => f a == b) = l'.find? fun a => f a == b := by
  cases hfind : l.find? fun a => f a == b with
  | none =>
    symm
    rw [List.find?_eq_none] at hfind ⊢
    intro a ha
    exact hfind a (hperm.mem_iff.mpr ha)
  | some a =>
    have hmem : a ∈ l := List.mem_of_find?_eq_some hfind
    have hkey : f a = b := by simpa using List.find?_some hfind
    cases hfind' : l'.find? fun a => f a == b with
    | none =>
      rw [List.find?_eq_none] at hfind'
      exact absurd (by simpa using hkey) (hfind' a (hperm.mem_iff.mp hmem))
    | some a' =>
      have hmem' : a' ∈ l := hperm.mem_iff.mpr (List.mem_of_find?_eq_some hfind')
      have hkey' : f a' = b := by simpa using List.find?_some hfind'
      rw [List.inj_on_of_nodup_map hnodup hmem hmem' (hkey.trans hkey'.symm)]

theorem renderSumVariant_eq (host : Host users finish State) (typeName : String) (v : Value) :
    renderSumVariant host typeName v = Reference.variantName host typeName v := by
  cases v with
  | sum tag payload =>
    let entries := host.sumVariants.entries.filter fun entry => entry.2.2 == typeName
    have hperm : (variantsOf host.sumVariants typeName).Perm
        (entries.map fun entry => (entry.2.1, entry.1)) := List.mergeSort_perm _ _
    have hnodup : ((variantsOf host.sumVariants typeName).map Prod.fst).Nodup := by
      rw [(hperm.map Prod.fst).nodup_iff, List.map_map]
      exact host.sumVariants.distinct typeName
    have hfind : ((variantsOf host.sumVariants typeName).find? fun variant => variant.1 == tag) =
        (host.sumVariants.entries.find? fun entry =>
          entry.2.2 == typeName && entry.2.1 == tag).map fun entry => (entry.2.1, entry.1) := by
      rw [find?_eq_of_perm hperm hnodup tag, List.find?_map, List.find?_filter]
      simp only [Function.comp_apply, Bool.decide_and, Bool.decide_eq_true]
    rw [renderSumVariant, Reference.variantName, hfind]
    cases host.sumVariants.entries.find? fun entry =>
        entry.2.2 == typeName && entry.2.1 == tag with
    | none => rfl
    | some entry => rfl
  | _ => rfl

/-! ### The emitted code and the reference -/

section Follows

variable {item item' : Nat → Emitted users finish State Text}
  {C : Nat → Before users finish State → Prop} {host : Host users finish State}

theorem follows_delimited (h : ∀ i, Follows (item i) (item' i) (C i)) (opening closing : String)
    (n : Nat) : Follows (Reference.delimited opening closing n item)
      (Reference.delimited opening closing n item') (eachThen C item' (Reference.shown n)) :=
  (Follows.each h (Reference.shown n)).map fun texts =>
    textLiteral opening ++ (Reference.separator n).intercalate texts ++ textLiteral closing

theorem follows_collection (h : ∀ i, Follows (item i) (item' i) (C i)) (empty : String) (n : Nat) :
    Follows (Reference.collection empty n item) (Reference.collection empty n item')
      (eachThen C item' (Reference.shown n)) := by
  rw [Reference.collection, Reference.collection]
  by_cases hzero : n = 0
  · rw [if_pos hzero, if_pos hzero, hzero]
    exact Follows.refl (extends_pure _)
  · rw [if_neg hzero, if_neg hzero]
    exact follows_delimited h "[|" "|]" n

theorem follows_loadElement (memory : Memory users finish State) (data i : Nat) :
    Follows (loadElement data i) (Reference.element memory data i)
      fun s => s.world.element data i = memory.element data i := by
  have hevent : Function.Injective (Event.element data i) := fun _ _ h => (Event.element.inj h).2.2
  exact Follows.visit hevent Failure.pastEnd
    (fun w : Memory users finish State => w.element data i) _

theorem follows_readKey (memory : Memory users finish State) (address i : Nat) :
    Follows (readKey address i) (Reference.key memory address i)
      fun s => s.world.key address i = memory.key address i := by
  have hevent : Function.Injective (Event.key address i) := fun _ _ h => (Event.key.inj h).2.2
  exact Follows.visit hevent Failure.pastEnd
    (fun w : Memory users finish State => w.key address i) _

theorem follows_readValue (memory : Memory users finish State) (address i : Nat) :
    Follows (readValue address i) (Reference.value memory address i)
      fun s => s.world.value address i = memory.value address i := by
  have hevent : Function.Injective (Event.value address i) := fun _ _ h => (Event.value.inj h).2.2
  exact Follows.visit hevent Failure.pastEnd
    (fun w : Memory users finish State => w.value address i) _

theorem follows_readItem (memory : Memory users finish State) (address i : Nat) :
    Follows (readItem address i) (Reference.item memory address i)
      fun s => s.world.item address i = memory.item address i := by
  have hevent : Function.Injective (Event.item address i) := fun _ _ h => (Event.item.inj h).2.2
  exact Follows.visit hevent Failure.pastEnd
    (fun w : Memory users finish State => w.item address i) _

theorem extends_callRenderOverride (host : Host users finish State) (name : String) (v : Value) :
    TracedM.Extends (callRenderOverride host name v) := by
  unfold callRenderOverride
  split
  · exact extends_throw _
  · exact extends_lift _

theorem extends_variantName (host : Host users finish State) (name : String) (v : Value) :
    TracedM.Extends (Reference.variantName host name v) := by
  unfold Reference.variantName
  split
  · split <;> exact extends_pure _
  · exact extends_throw _

theorem extends_byMember (host : Host users finish State) (name : String) (v : Value)
    {default : Emitted users finish State Text} (h : TracedM.Extends default) :
    TracedM.Extends (Reference.byMember host name v default) := by
  unfold Reference.byMember
  split
  · exact extends_callRenderOverride host name v
  · exact h

/-- What is emitted for a collection that is a map or a set. -/
theorem follows_joined {n : Option Nat} (h : ∀ i, Follows (item i) (item' i) (C i))
    (empty : String) {reference : Emitted users finish State Text}
    (hreference : reference = match n with
      | none => throw .noCollection
      | some n => Reference.collection empty n item') :
    Follows (readLen n >>= fun n => renderJoined n empty item) reference
      (eachThen C item' (Reference.shown (n.getD 0))) := by
  subst hreference
  cases n with
  | none => exact Follows.refl (extends_throw _)
  | some n =>
    show Follows (renderJoined n empty item) (Reference.collection empty n item') _
    rw [renderJoined_eq]
    exact follows_collection h empty n

theorem follows_renderValue : ∀ (ty : Ty) (v : Value),
    Follows (renderValue host ty v) (Reference.render host ty v) (untouched host ty v)
  | .num, v => by
    cases v with
    | num bits => exact Follows.refl (extends_pure _)
    | _ => exact Follows.refl (extends_throw _)
  | .generic _, v => by
    cases v with
    | num bits => exact Follows.refl (extends_pure _)
    | _ => exact Follows.refl (extends_throw _)
  | .bool, v => by
    cases v with
    | bool b => exact Follows.refl (extends_pure _)
    | _ => exact Follows.refl (extends_throw _)
  | .text, v => by
    cases v with
    | text bytes => exact Follows.refl (extends_pure _)
    | _ => exact Follows.refl (extends_throw _)
  | .unit, v => by cases v <;> exact Follows.refl (extends_pure _)
  | .record _, v => by cases v <;> exact Follows.refl (extends_pure _)
  | .function _ _, v => by cases v <;> exact Follows.refl (extends_pure _)
  | .named name _ _, v => by
    have hextends := extends_byMember host name v
      (show TracedM.Extends (pure (textLiteral name) : Emitted users finish State Text) from
        extends_pure _)
    cases v <;> exact Follows.refl hextends
  | .sum name variants, v => by
    have hextends := extends_byMember host name v (extends_variantName host name v)
    have hsame : renderValue host (.sum name variants) v =
        Reference.byMember host name v (Reference.variantName host name v) := by
      rw [renderValue, renderSumVariant_eq]
      rfl
    rw [hsame]
    cases v <;> exact Follows.refl hextends
  | .array elem, v => by
    cases v with
    | array data size =>
      rw [renderValue, renderElements_eq]
      exact Follows.worldRight fun memory => follows_delimited
        (fun i => (follows_loadElement memory data i).bind fun v => follows_renderValue elem v)
        "[" "]" size
    | _ => exact Follows.refl (extends_throw _)
  | .map keyType valueType, v => by
    cases v with
    | map address =>
      rw [renderValue]
      refine Follows.world fun memory => follows_joined (fun i =>
        (follows_readKey memory address i).bind fun k =>
          (follows_renderValue keyType (keyFromWords k)).bind fun keyText =>
            (follows_readValue memory address i).bind fun v =>
              (follows_renderValue valueType v).map fun valueText =>
                keyText ++ textLiteral " => " ++ valueText) "[|=>|]" ?_
      cases memory.mapHeader address <;> rfl
    | _ => exact Follows.refl (extends_throw _)
  | .set elem, v => by
    cases v with
    | set address =>
      rw [renderValue]
      refine Follows.world fun memory => follows_joined (fun i =>
        (follows_readItem memory address i).bind fun k =>
          follows_renderValue elem (keyFromWords k)) "[||]" ?_
      cases memory.setHeader address <;> rfl
    | _ => exact Follows.refl (extends_throw _)

theorem denotesReceiver_eq (member : Option String) (ty : Ty) (e : Expression) :
    (isReceiver e && (declaredName ty).isSome && member == declaredName ty) =
      Reference.denotesReceiver member ty e := by
  cases e with
  | identifier name span =>
    show (name == RECEIVER && (declaredName ty).isSome && member == declaredName ty) =
      (name == RECEIVER && member.isSome && declaredName ty == member)
    by_cases hsame : member = declaredName ty
    · rw [hsame]
    · rw [beq_eq_false_iff_ne.mpr hsame, beq_eq_false_iff_ne.mpr (Ne.symm hsame), Bool.and_false,
        Bool.and_false]
  | _ => rfl

/-- The default of the receiver's type reads no collection. -/
theorem follows_default {ty : Ty} (hdeclared : (declaredName ty).isSome = true) (v : Value) :
    Follows (renderBuiltinDefault host ty v) (Reference.default host ty v) fun _ => True := by
  cases ty with
  | named name fields methods => exact Follows.refl (extends_pure _)
  | sum name variants =>
    show Follows (renderSumVariant host name v) (Reference.variantName host name v) _
    rw [renderSumVariant_eq]
    exact Follows.refl (extends_variantName host name v)
  | _ => cases hdeclared

theorem extends_evaluate (host : Host users finish State) (e : Expression) :
    TracedM.Extends (evaluate host e) :=
  (extends_note _).bind fun _ => extends_lift _

theorem follows_renderExpression (member : Option String) (e : Expression) :
    Follows (renderExpression host member e) (Reference.expression host member e)
      (expressionUntouched host member e) := by
  rw [renderExpression, Reference.expression, expressionUntouched]
  cases host.oracleType e with
  | none => exact Follows.refl (extends_throw _)
  | some ty =>
    refine Follows.behind (extends_evaluate host e) fun v => ?_
    rw [denotesReceiver_eq]
    cases hreceiver : Reference.denotesReceiver member ty e with
    | true =>
      have hdeclared : (declaredName ty).isSome = true := by
        rw [← denotesReceiver_eq, Bool.and_eq_true, Bool.and_eq_true] at hreceiver
        exact hreceiver.1.2
      exact (follows_default hdeclared v).congr fun s => by simp
    | false => exact (follows_renderValue ty v).congr fun s => by simp

theorem follows_renderPart (member : Option String) (part : InterpolationPart) :
    Follows (renderPart host member part) (Reference.part host member part)
      (partUntouched host member part) := by
  cases part with
  | literal s => exact Follows.refl (extends_pure _)
  | hole e => exact follows_renderExpression member e

/-- The pieces are put together in the order they are written in. -/
theorem renderParts_eq (member : Option String) (parts : List InterpolationPart)
    (acc : Option Text) :
    renderParts host member acc parts = (do
      let texts ← each (renderPart host member) parts
      return acc.getD [] ++ texts.flatten) := by
  induction parts generalizing acc with
  | nil =>
    cases acc with
    | none => rfl
    | some acc => simp [renderParts, each]
  | cons part rest ih =>
    cases acc <;> simp [renderParts, each, ih]

theorem follows_generateInterpolation (member : Option String) (parts : List InterpolationPart) :
    Follows (generateInterpolation host member parts) (Reference.interpolation host member parts)
      (interpolationUntouched host member parts) := by
  rw [generateInterpolation, renderParts_eq]
  exact (Follows.each (follows_renderPart member) parts).map List.flatten

end Follows

/-! ### The rendering -/

/-- An interpolated literal, what is printed, and a value of any type run as in the reference: they
give the same text or fail alike, read the same items in the same order, evaluate the holes in the
same order, and leave the same memory.  They do so from exactly the states from which the run of the
reference finds each item in its place when its turn comes. -/
theorem rendering_iff (host : Host users finish State) (member : Option String)
    (start : Before users finish State) :
    (∀ parts, generateInterpolation host member parts start =
        Reference.interpolation host member parts start ↔
      interpolationUntouched host member parts start) ∧
    (∀ e, renderExpression host member e start = Reference.expression host member e start ↔
      expressionUntouched host member e start) ∧
    (∀ ty v, renderValue host ty v start = Reference.render host ty v start ↔
      untouched host ty v start) :=
  ⟨fun parts => (follows_generateInterpolation member parts).iff start,
    fun e => (follows_renderExpression member e).iff start,
    fun ty v => (follows_renderValue ty v).iff start⟩

/-! ### Render members that change no collection -/

/-- The collections stay as they are. -/
def Quiet (host : Host users finish State) : Prop :=
  ∀ name code, host.renderMember name = some code → ∀ v memory,
    (code v memory).2.tables = memory.tables ∧ (code v memory).2.arrays = memory.arrays

/-- The collections are those of `memory`. -/
def SameCollections (memory : Memory users finish State) (s : Before users finish State) : Prop :=
  s.world.tables = memory.tables ∧ s.world.arrays = memory.arrays

section Quiet

variable {host : Host users finish State} {memory : Memory users finish State}

theorem keeps_visit {α : Type} (event : α → Event) (missing : Failure) (a : Option α) :
    Keeps (SameCollections memory)
      (TracedM.visit event missing a : Emitted users finish State α) := by
  cases a with
  | none => exact keeps_throw missing
  | some a => exact fun _ hs => hs

theorem keeps_callRenderOverride (hquiet : Quiet host) (name : String) (v : Value) :
    Keeps (SameCollections memory) (callRenderOverride host name v) := by
  unfold callRenderOverride
  split
  case h_1 => exact keeps_throw _
  case h_2 code hcode =>
    intro s hs
    have hsame := hquiet name code hcode v s.world
    have hafter : (TracedM.after (lift (code v) s)).world = (code v s.world).2 := by
      unfold lift
      split
      · next h => rw [h]; rfl
      · next h => rw [h]; rfl
    rw [SameCollections, hafter, hsame.1, hsame.2]
    exact hs

theorem keeps_variantName (host : Host users finish State) (name : String) (v : Value) :
    Keeps (SameCollections memory) (Reference.variantName host name v) := by
  unfold Reference.variantName
  split
  · split <;> exact keeps_pure _
  · exact keeps_throw _

theorem keeps_byMember (hquiet : Quiet host) (name : String) (v : Value)
    {default : Emitted users finish State Text} (h : Keeps (SameCollections memory) default) :
    Keeps (SameCollections memory) (Reference.byMember host name v default) := by
  unfold Reference.byMember
  split
  · exact keeps_callRenderOverride hquiet name v
  · exact h

theorem keeps_delimited {item : Nat → Emitted users finish State Text}
    (h : ∀ i, Keeps (SameCollections memory) (item i)) (opening closing : String) (n : Nat) :
    Keeps (SameCollections memory) (Reference.delimited opening closing n item) :=
  (Keeps.each h _).bind fun _ => keeps_pure _

theorem keeps_collection {item : Nat → Emitted users finish State Text}
    (h : ∀ i, Keeps (SameCollections memory) (item i)) (empty : String) (n : Nat) :
    Keeps (SameCollections memory) (Reference.collection empty n item) := by
  unfold Reference.collection
  split
  · exact keeps_pure _
  · exact keeps_delimited h _ _ n

theorem keeps_world {α : Type} {f : Memory users finish State → Emitted users finish State α}
    (h : ∀ found, Keeps (SameCollections memory) (f found)) :
    Keeps (SameCollections memory) (world >>= f) := fun s hs => h s.world s hs

/-- A quiet rendering leaves the collections as they are. -/
theorem keeps_render (hquiet : Quiet host) : ∀ (ty : Ty) (v : Value),
    Keeps (SameCollections memory) (Reference.render host ty v)
  | .num, v => by
    cases v with
    | num bits => exact keeps_pure _
    | _ => exact keeps_throw _
  | .generic _, v => by
    cases v with
    | num bits => exact keeps_pure _
    | _ => exact keeps_throw _
  | .bool, v => by
    cases v with
    | bool b => exact keeps_pure _
    | _ => exact keeps_throw _
  | .text, v => by
    cases v with
    | text bytes => exact keeps_pure _
    | _ => exact keeps_throw _
  | .unit, v => by cases v <;> exact keeps_pure _
  | .record _, v => by cases v <;> exact keeps_pure _
  | .function _ _, v => by cases v <;> exact keeps_pure _
  | .named name _ _, v => by
    have hkeeps : Keeps (SameCollections memory) (Reference.byMember host name v _) :=
      keeps_byMember hquiet name v (keeps_pure (textLiteral name))
    cases v <;> exact hkeeps
  | .sum name _, v => by
    have hkeeps : Keeps (SameCollections memory) (Reference.byMember host name v _) :=
      keeps_byMember hquiet name v (keeps_variantName host name v)
    cases v <;> exact hkeeps
  | .array elem, v => by
    cases v with
    | array data size =>
      exact keeps_world fun found => keeps_delimited (fun i =>
        (keeps_visit _ _ _).bind fun v => keeps_render hquiet elem v) "[" "]" size
    | _ => exact keeps_throw _
  | .map keyType valueType, v => by
    cases v with
    | map address =>
      refine keeps_world fun found => ?_
      cases found.mapHeader address with
      | none => exact keeps_throw _
      | some header =>
        exact keeps_collection (fun i => (keeps_visit _ _ _).bind fun k =>
          (keeps_render hquiet keyType _).bind fun _ => (keeps_visit _ _ _).bind fun v =>
            (keeps_render hquiet valueType v).bind fun _ => keeps_pure _) "[|=>|]" (mapLen header)
    | _ => exact keeps_throw _
  | .set elem, v => by
    cases v with
    | set address =>
      refine keeps_world fun found => ?_
      cases found.setHeader address with
      | none => exact keeps_throw _
      | some header =>
        exact keeps_collection (fun i => (keeps_visit _ _ _).bind fun k =>
          keeps_render hquiet elem _) "[||]" (setLen header)
    | _ => exact keeps_throw _

theorem SameCollections.key_eq {s : Before users finish State} (h : SameCollections memory s)
    (address i : Nat) : s.world.key address i = memory.key address i := by
  rw [Memory.key, Memory.key, Memory.mapHeader, Memory.mapHeader, h.1]

theorem SameCollections.value_eq {s : Before users finish State} (h : SameCollections memory s)
    (address i : Nat) : s.world.value address i = memory.value address i := by
  rw [Memory.value, Memory.value, Memory.mapHeader, Memory.mapHeader, h.1]

theorem SameCollections.item_eq {s : Before users finish State} (h : SameCollections memory s)
    (address i : Nat) : s.world.item address i = memory.item address i := by
  rw [Memory.item, Memory.item, Memory.setHeader, Memory.setHeader, h.1]

theorem SameCollections.element_eq {s : Before users finish State} (h : SameCollections memory s)
    (data i : Nat) : s.world.element data i = memory.element data i := by
  rw [Memory.element, Memory.element, h.2]

/-- Where no render member changes a collection, every item is in its place. -/
theorem untouched_of_quiet (hquiet : Quiet host) : ∀ (ty : Ty) (v : Value)
    (start : Before users finish State), untouched host ty v start
  | .array elem, v, start => by
    cases v with
    | array data size =>
      refine Keeps.eachThen (I := SameCollections start.world)
        (fun i => (keeps_visit _ _ _).bind fun v => keeps_render hquiet elem v) ?_ _ start
        ⟨rfl, rfl⟩
      intro i
      exact (keeps_visit _ _ _).andThen (fun s hs => hs.element_eq data i)
        fun v s _ => untouched_of_quiet hquiet elem v s
    | _ => trivial
  | .map keyType valueType, v, start => by
    cases v with
    | map address =>
      refine Keeps.eachThen (I := SameCollections start.world)
        (fun i => (keeps_visit _ _ _).bind fun k => (keeps_render hquiet keyType _).bind fun _ =>
          (keeps_visit _ _ _).bind fun v => (keeps_render hquiet valueType v).bind fun _ =>
            keeps_pure _) ?_ _ start ⟨rfl, rfl⟩
      intro i
      refine (keeps_visit _ _ _).andThen (fun s hs => hs.key_eq address i) fun k => ?_
      refine (keeps_render hquiet keyType _).andThen
        (fun s _ => untouched_of_quiet hquiet keyType _ s) fun _ => ?_
      exact (keeps_visit _ _ _).andThen (fun s hs => hs.value_eq address i)
        fun v s _ => untouched_of_quiet hquiet valueType v s
    | _ => trivial
  | .set elem, v, start => by
    cases v with
    | set address =>
      refine Keeps.eachThen (I := SameCollections start.world)
        (fun i => (keeps_visit _ _ _).bind fun k => keeps_render hquiet elem _) ?_ _ start
        ⟨rfl, rfl⟩
      intro i
      exact (keeps_visit _ _ _).andThen (fun s hs => hs.item_eq address i)
        fun k s _ => untouched_of_quiet hquiet elem _ s
    | _ => trivial
  | .num, v, _ | .generic _, v, _ | .bool, v, _ | .text, v, _ | .unit, v, _ | .record _, v, _
  | .function _ _, v, _ | .named _ _ _, v, _ | .sum _ _, v, _ => by cases v <;> trivial

end Quiet

/-! ### A map that its values' render member changes -/

/-- Keys of user types, told apart as they are. -/
def plainKeys : UserKeys Value where
  hash _ := 0
  eq a b := decide (a = b)
  eq_refl _ := decide_eq_true rfl
  eq_symm h := decide_eq_true (of_decide_eq_true h).symm
  eq_trans h h' := decide_eq_true ((of_decide_eq_true h).trans (of_decide_eq_true h'))
  hash_congr _ := .inl rfl

def asEntered : Collections.Order (QnKey Value × Value) := ⟨id, fun entries => .refl entries⟩

abbrev EntryMemory := Memory plainKeys (fun _ _ => 0) Unit

/-- The map `[|"a" => first, "b" => second|]`. -/
def twoEntries : Header plainKeys (fun _ _ => 0) Value :=
  let first := refreshSnapshot asEntered (HashTable.empty.insert (.text [97]) (.record 0))
  refreshSnapshot asEntered (first.table.insert (.text [98]) (.record 1))

/-- The render member of `Entry`: it removes `"b"` from the map, and gives `"x"`. -/
def removesB (_ : Value) (memory : EntryMemory) : Except Failure Text × EntryMemory :=
  (.ok [120], { memory with
    tables := { memory.tables with
      maps := memory.tables.maps.map fun header => mapRemove asEntered header (.text [98]) } })

def entryHost : Host plainKeys (fun _ _ => 0) Unit where
  oracleType _ := none
  generateExpression _ memory := (.error .stopped, memory)
  numToText _ := []
  renderOverrides := ["Entry"]
  renderMember name := if name = "Entry" then some removesB else none
  sumVariants := ⟨[], fun _ => List.nodup_nil⟩

def entryStart : Before plainKeys (fun _ _ => 0) Unit :=
  ⟨⟨⟨[twoEntries], []⟩, [], ()⟩, []⟩

/-- The first entry's render member removes the second entry: the emitted code reads behind the end
of the snapshot where the reference shows both. -/
theorem removed_while_rendered :
    (∃ s, renderValue entryHost (.map .text (.named "Entry" [] [])) (.map 0) entryStart =
        .error .pastEnd s) ∧
      ∃ text s, Reference.render entryHost (.map .text (.named "Entry" [] [])) (.map 0) entryStart =
        .ok text s :=
  ⟨⟨_, rfl⟩, ⟨_, _, rfl⟩⟩

end Quilon.Rendering
