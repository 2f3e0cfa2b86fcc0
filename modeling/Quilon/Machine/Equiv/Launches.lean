import Quilon.Machine.Transitions
import Quilon.Deferral.Equiv.LaunchScopes

/-!
# Launches and the scopes that join them

A launch is joined by the innermost scope its fiber has open, so it is joined before the function
that made it returns only if that function, lambda, method or arm opened one.  Which scopes are
open is decided by the deferral analysis (`launchScopes`) and by how the block was lowered: a block
in tail position of a loop opens none, the loop's body opens its own at the header.

Main results:

* `openScope_iff` — a scope of the running activation is open exactly when one of its blocks that
  opens scopes is the innermost one around a recognised launch;
* `launch_joined` — in a run whose launches all happen under such a block, no activation returns
  before what it launched has settled.
-/

namespace Quilon

/-! ### Open scopes -/

/-- The running activation has a scope open on its fiber. -/
def openScope : List Frame → Bool
  | [] => false
  | .block _ _ (some _) _ :: _ => true
  | .activation _ _ scope _ :: _ => scope.isSome
  | .guard _ :: _ => false
  | _ :: frames => openScope frames

/-- One of the blocks the running activation is in is the innermost one around a call that the
analysis recognises as a launch, and is not a block that the loop lowering opens no scope for. -/
def Opens (program : Program) : List Frame → Prop
  | [] => False
  | .block tail span _ _ :: frames =>
    (tail = false ∧ program.LaunchingBlock span) ∨ Opens program frames
  | .activation code _ _ _ :: _ => code.loop = true ∧ program.LaunchingBlock code.body.span
  | .guard _ :: _ => False
  | _ :: frames => Opens program frames

/-- A frame's scope is open as the analysis and the lowering have it. -/
def Frame.ScopeFits (setup : Setup) : Frame → Prop
  | .block tail span scope _ =>
    scope.isSome = (!tail && setup.info.launchScopes.contains span)
  | .activation code _ scope _ =>
    scope.isSome = (code.loop && setup.info.launchScopes.contains code.body.span)
  | _ => True

theorem openScope_iff {setup : Setup} {frames : List Frame}
    (hscopes : ∀ span, span ∈ setup.info.launchScopes ↔ setup.program.LaunchingBlock span)
    (hfits : ∀ frame ∈ frames, frame.ScopeFits setup) :
    openScope frames = true ↔ Opens setup.program frames := by
  induction frames with
  | nil => simp [openScope, Opens]
  | cons frame frames ih =>
    obtain ⟨hframe, hrest⟩ := List.forall_mem_cons.mp hfits
    cases frame with
    | block tail span scope visible =>
      have hopen : scope.isSome = true ↔ tail = false ∧ setup.program.LaunchingBlock span := by
        rw [hframe, Bool.and_eq_true, Bool.not_eq_true', List.contains_iff_mem, hscopes]
      cases scope with
      | none =>
        have hclosed : ¬ (tail = false ∧ setup.program.LaunchingBlock span) := by
          rw [← hopen]
          simp
        simpa [openScope, Opens, hclosed] using ih hrest
      | some scope => simpa [openScope, Opens] using .inl (hopen.mp rfl)
    | activation code caller scope launched =>
      show scope.isSome = true ↔ _
      rw [hframe, Bool.and_eq_true, List.contains_iff_mem, hscopes, Opens]
    | guard context => simp [openScope, Opens]
    | _ => exact ih hrest

/-! ### What is launched and not settled is in an open scope -/

def isSettled (launches : List Bool) (launch : Nat) : Prop :=
  launches[launch]? = some true

/-- Whatever an activation launched has settled, or is in a scope of its own that is still open.
`pending` are the launches in the open scopes above `frames`. -/
def Joined (launches : List Bool) : List Nat → List Frame → Prop
  | _, [] => True
  | pending, .block _ _ scope _ :: frames => Joined launches (scope.getD [] ++ pending) frames
  | pending, .activation _ _ scope launched :: frames =>
    (∀ launch ∈ launched,
      isSettled launches launch ∨ launch ∈ pending ∨ launch ∈ scope.getD []) ∧
    Joined launches [] frames
  | _, .guard _ :: frames => Joined launches [] frames
  | pending, _ :: frames => Joined launches pending frames

section Joined

variable {launches launches' : List Bool} {pending pending' : List Nat} {frames : List Frame}
  {launch : Nat}

/-- More has settled, or more scopes are open. -/
theorem Joined.mono (h : Joined launches pending frames)
    (hpending : ∀ launch ∈ pending, isSettled launches' launch ∨ launch ∈ pending')
    (hsettled : ∀ launch, isSettled launches launch → isSettled launches' launch) :
    Joined launches' pending' frames := by
  induction frames generalizing pending pending' with
  | nil => trivial
  | cons frame frames ih =>
    cases frame with
    | block tail span scope visible =>
      refine ih h fun launch hlaunch => ?_
      rcases List.mem_append.mp hlaunch with hscope | hrest
      · exact .inr (List.mem_append_left _ hscope)
      · exact (hpending launch hrest).imp_right (List.mem_append_right _)
    | activation code caller scope launched =>
      refine ⟨fun launch hlaunch => ?_, ih h.2 (fun launch hlaunch => by cases hlaunch)⟩
      rcases h.1 launch hlaunch with hdone | hwait | hown
      · exact .inl (hsettled launch hdone)
      · rcases hpending launch hwait with hdone | hwait
        · exact .inl hdone
        · exact .inr (.inl hwait)
      · exact .inr (.inr hown)
    | guard context => exact ih h (fun launch hlaunch => by cases hlaunch)
    | _ => exact ih h hpending

theorem Joined.record (h : Joined launches pending frames) (hlaunch : launch ∈ pending) :
    Joined launches pending (recordLaunch launch frames) := by
  induction frames generalizing pending with
  | nil => trivial
  | cons frame frames ih =>
    cases frame with
    | block tail span scope visible => exact ih h (List.mem_append_right _ hlaunch)
    | activation code caller scope launched =>
      refine ⟨fun other hother => ?_, h.2⟩
      rcases List.mem_append.mp hother with hother | hother
      · exact h.1 other hother
      · rw [List.mem_singleton.mp hother]
        exact .inr (.inl hlaunch)
    | guard context => exact h
    | _ => exact ih h hlaunch

/-- A launch made while a scope of the activation is open is in that scope. -/
theorem Joined.register (h : Joined launches pending frames) (hopen : openScope frames = true) :
    Joined launches pending (recordLaunch launch (registerLaunch launch frames)) := by
  induction frames generalizing pending with
  | nil => cases hopen
  | cons frame frames ih =>
    cases frame with
    | block tail span scope visible =>
      cases scope with
      | none => exact ih h hopen
      | some scope =>
        show Joined launches ((scope ++ [launch]) ++ pending) (recordLaunch launch frames)
        have hscope : Joined launches ((scope ++ [launch]) ++ pending) frames := by
          have hbefore : Joined launches (scope ++ pending) frames := h
          refine hbefore.mono (fun other hother => .inr ?_) fun _ => id
          rcases List.mem_append.mp hother with hother | hother
          · exact List.mem_append_left _ (List.mem_append_left _ hother)
          · exact List.mem_append_right _ hother
        exact hscope.record (by simp)
    | activation code caller scope launched =>
      cases scope with
      | none => cases hopen
      | some scope =>
        refine ⟨fun other hother => ?_, h.2⟩
        rcases List.mem_append.mp hother with hother | hother
        · rcases h.1 other hother with hdone | hwait | hown
          · exact .inl hdone
          · exact .inr (.inl hwait)
          · exact .inr (.inr (List.mem_append_left _ hown))
        · rw [List.mem_singleton.mp hother]
          exact .inr (.inr (by simp))
    | guard context => cases hopen
    | _ => exact ih h hopen

/-- Leaving a guarded call drops whole activations. -/
theorem Joined.abandon {context : Context} {rest : List Frame} (h : Joined launches pending frames)
    (hdrop : frames.dropWhile (!·.isGuard) = .guard context :: rest) : Joined launches [] rest := by
  induction frames generalizing pending with
  | nil => cases hdrop
  | cons frame frames ih =>
    cases frame with
    | guard outer =>
      obtain ⟨-, rfl⟩ := List.cons.inj hdrop
      exact h
    | activation code caller scope launched => exact ih h.2 hdrop
    | _ => exact ih h hdrop

end Joined

/-! ### Code in tail position runs under no block scope -/

/-- No block of the running activation has a scope open. -/
def Clear : List Frame → Prop
  | [] => True
  | .block _ _ scope _ :: frames => scope = none ∧ Clear frames
  | .activation _ _ _ _ :: _ => True
  | _ :: frames => Clear frames

def Frame.inTail : Frame → Bool
  | .operands _ tail _ _ | .condition tail _ _ | .scrutinee tail _ | .statement tail _
  | .bind _ tail _ => tail
  | _ => false

def Control.inTail : Control → Bool
  | .eval tail _ | .operands _ tail _ _ | .run tail _ => tail
  | .restart _ => true
  | _ => false

def TailsClear : List Frame → Prop
  | [] => True
  | frame :: frames => (frame.inTail = true → Clear frames) ∧ TailsClear frames

section Clear

variable {launches : List Bool} {frames : List Frame} {launch : Nat}

theorem clear_register (h : Clear frames) : Clear (registerLaunch launch frames) := by
  induction frames with
  | nil => trivial
  | cons frame frames ih =>
    cases frame with
    | block tail span scope visible =>
      cases scope with
      | none => exact ⟨rfl, ih h.2⟩
      | some scope => cases h.1
    | activation code caller scope launched => cases scope <;> trivial
    | guard context => exact h
    | _ => exact ih h

theorem clear_record (h : Clear frames) : Clear (recordLaunch launch frames) := by
  induction frames with
  | nil => trivial
  | cons frame frames ih =>
    cases frame with
    | block tail span scope visible => exact ⟨h.1, ih h.2⟩
    | activation code caller scope launched => trivial
    | guard context => exact h
    | _ => exact ih h

theorem tailsClear_register (h : TailsClear frames) : TailsClear (registerLaunch launch frames) := by
  induction frames with
  | nil => trivial
  | cons frame frames ih =>
    cases frame with
    | block tail span scope visible =>
      cases scope with
      | none => exact ⟨fun htail => (by cases htail), ih h.2⟩
      | some scope => exact ⟨fun htail => (by cases htail), h.2⟩
    | activation code caller scope launched =>
      cases scope with
      | none => exact ⟨fun htail => (by cases htail), ih h.2⟩
      | some scope => exact ⟨fun htail => (by cases htail), h.2⟩
    | guard context => exact h
    | _ => exact ⟨fun htail => clear_register (h.1 htail), ih h.2⟩

theorem tailsClear_record (h : TailsClear frames) : TailsClear (recordLaunch launch frames) := by
  induction frames with
  | nil => trivial
  | cons frame frames ih =>
    cases frame with
    | activation code caller scope launched => exact ⟨fun htail => (by cases htail), h.2⟩
    | guard context => exact h
    | _ => exact ⟨fun htail => clear_record (h.1 htail), ih h.2⟩

theorem tailsClear_suffix {rest : List Frame} (h : TailsClear frames) (hrest : rest <:+ frames) :
    TailsClear rest := by
  induction frames with
  | nil =>
    rw [List.suffix_nil.mp hrest]
    trivial
  | cons frame frames ih =>
    rcases List.suffix_cons_iff.mp hrest with rfl | hrest
    · exact h
    · exact ih h.2 hrest

/-- The back-edge leaves no scope of a block behind. -/
theorem Joined.restart {rest : List Frame} (h : Joined launches [] frames) (hclear : Clear frames)
    (hdrop : frames.dropWhile (!·.isActivation) = rest) : Joined launches [] rest := by
  induction frames with
  | nil =>
    subst hdrop
    trivial
  | cons frame frames ih =>
    cases frame with
    | block tail span scope visible =>
      obtain ⟨rfl, hclear⟩ := hclear
      exact ih h hclear hdrop
    | activation code caller scope launched =>
      subst hdrop
      exact h
    | _ => exact ih h hclear hdrop

end Clear

/-! ### Steps -/

/-- What the invariants ask of a fiber's frames, below code that is in tail position or not. -/
structure Stack (setup : Setup) (launches : List Bool) (tail : Bool) (frames : List Frame) :
    Prop where
  fits : ∀ frame ∈ frames, frame.ScopeFits setup
  joined : Joined launches [] frames
  clear : tail = true → Clear frames
  tails : TailsClear frames

def Fiber.Joins (setup : Setup) (launches : List Bool) (fiber : Fiber) : Prop :=
  Stack setup launches fiber.control.inTail fiber.frames

/-- Frames that are neither blocks nor boundaries of calls. -/
def Frame.isPlain : Frame → Bool
  | .block _ _ _ _ | .activation _ _ _ _ | .guard _ => false
  | _ => true

section Stack

variable {setup : Setup} {launches : List Bool} {tail tail' : Bool} {frames : List Frame}
  {frame : Frame}

theorem Stack.nil : Stack setup launches false [] :=
  ⟨fun _ h => (by cases h), trivial, fun hf => (by cases hf), trivial⟩

theorem Stack.notTail (h : Stack setup launches tail frames) : Stack setup launches false frames :=
  ⟨h.fits, h.joined, fun hfalse => (by cases hfalse), h.tails⟩

theorem Stack.push (h : Stack setup launches tail frames) (hplain : frame.isPlain = true)
    (htail : tail' = true → tail = true) (hframe : frame.inTail = true → tail = true) :
    Stack setup launches tail' (frame :: frames) := by
  have hclear : Clear frames → Clear (frame :: frames) := by
    cases frame <;> first | exact id | cases hplain
  have hjoined : Joined launches [] frames → Joined launches [] (frame :: frames) := by
    cases frame <;> first | exact id | cases hplain
  refine ⟨List.forall_mem_cons.mpr ⟨?_, h.fits⟩, hjoined h.joined,
    fun ht => hclear (h.clear (htail ht)), fun hf => h.clear (hframe hf), h.tails⟩
  cases frame <;> cases hplain <;> trivial

theorem Stack.pop (h : Stack setup launches tail (frame :: frames)) (hplain : frame.isPlain = true) :
    Stack setup launches frame.inTail frames := by
  have hjoined : Joined launches [] (frame :: frames) → Joined launches [] frames := by
    cases frame <;> first | exact id | cases hplain
  exact ⟨(List.forall_mem_cons.mp h.fits).2, hjoined h.joined, h.tails.1, h.tails.2⟩

theorem Stack.pushBlock {span : Span} {scope : Option (List Nat)} {visible : List (String × Bool)}
    {blockTail : Bool} (h : Stack setup launches tail frames)
    (hfits : scope.isSome = (!blockTail && setup.info.launchScopes.contains span))
    (hempty : scope.getD [] = []) (htail : tail' = true → tail = true ∧ scope = none) :
    Stack setup launches tail' (.block blockTail span scope visible :: frames) := by
  refine ⟨List.forall_mem_cons.mpr ⟨hfits, h.fits⟩, ?_, ?_, fun hf => (by cases hf), h.tails⟩
  · show Joined launches (scope.getD [] ++ []) frames
    rw [hempty]
    exact h.joined
  · exact fun ht => ⟨(htail ht).2, h.clear (htail ht).1⟩

/-- What a join waits for has settled. -/
theorem isSettled_of_settled {store : Store} {scope : Option (List Nat)} {launch : Nat}
    (h : store.settled scope = true) (hlaunch : launch ∈ scope.getD []) :
    isSettled store.launches launch := by
  have hdone := List.all_eq_true.mp h launch hlaunch
  unfold isSettled
  cases hcase : store.launches[launch]? with
  | none => simp [hcase] at hdone
  | some done =>
    rw [hcase] at hdone
    exact congrArg some hdone

theorem Stack.popBlock {store : Store} {span : Span} {scope : Option (List Nat)}
    {visible : List (String × Bool)} {blockTail : Bool}
    (h : Stack setup store.launches tail (.block blockTail span scope visible :: frames))
    (hsettled : store.settled scope = true) : Stack setup store.launches false frames := by
  refine ⟨(List.forall_mem_cons.mp h.fits).2, ?_, fun hf => (by cases hf), h.tails.2⟩
  have hjoined : Joined store.launches (scope.getD [] ++ []) frames := h.joined
  refine hjoined.mono (fun launch hlaunch => .inl ?_) fun _ => id
  rw [List.append_nil] at hlaunch
  exact isSettled_of_settled hsettled hlaunch

theorem bodyScope_fits (code : Closure) {caller : Context} {launched : List Nat} :
    (Frame.activation code caller (setup.bodyScope code) launched).ScopeFits setup := by
  show (setup.bodyScope code).isSome = _
  unfold Setup.bodyScope
  split <;> simp_all

theorem Stack.enter (h : Stack setup launches tail frames) (code : Closure) (caller : Context) :
    Stack setup launches tail' (.activation code caller (setup.bodyScope code) [] :: frames) := by
  exact ⟨List.forall_mem_cons.mpr ⟨bodyScope_fits code, h.fits⟩,
    ⟨fun launch hl => (by cases hl), h.joined⟩, fun _ => trivial, fun hf => (by cases hf), h.tails⟩

theorem Stack.guard {context : Context} (h : Stack setup launches tail frames) :
    Stack setup launches false (.guard context :: frames) :=
  ⟨List.forall_mem_cons.mpr ⟨trivial, h.fits⟩, h.joined, fun hf => (by cases hf),
    fun hf => (by cases hf), h.tails⟩

/-- More launches, or more of them settled. -/
theorem Stack.later {launches' : List Bool} (h : Stack setup launches tail frames)
    (hsettled : ∀ launch, isSettled launches launch → isSettled launches' launch) :
    Stack setup launches' tail frames :=
  ⟨h.fits, h.joined.mono (fun _ hlaunch => by cases hlaunch) hsettled, h.clear, h.tails⟩

theorem fits_register {launch : Nat} (h : ∀ frame ∈ frames, frame.ScopeFits setup) :
    ∀ frame ∈ registerLaunch launch frames, frame.ScopeFits setup := by
  induction frames with
  | nil => exact h
  | cons frame frames ih =>
    obtain ⟨hframe, hrest⟩ := List.forall_mem_cons.mp h
    have htail := ih hrest
    unfold registerLaunch
    split <;> simp_all [Frame.ScopeFits]

theorem fits_record {launch : Nat} (h : ∀ frame ∈ frames, frame.ScopeFits setup) :
    ∀ frame ∈ recordLaunch launch frames, frame.ScopeFits setup := by
  induction frames with
  | nil => exact h
  | cons frame frames ih =>
    obtain ⟨hframe, hrest⟩ := List.forall_mem_cons.mp h
    have htail := ih hrest
    unfold recordLaunch
    split <;> simp_all [Frame.ScopeFits]

theorem isSettled_push {launch : Nat} (h : isSettled launches launch) :
    isSettled (launches ++ [false]) launch := by
  obtain ⟨hlt, -⟩ := List.getElem?_eq_some_iff.mp h
  rw [isSettled, List.getElem?_append_left hlt]
  exact h

/-- The step that launches, with a scope of the activation open. -/
theorem Stack.launch {launch : Nat} (h : Stack setup launches tail frames)
    (hopen : openScope frames = true) :
    Stack setup (launches ++ [false]) false (recordLaunch launch (registerLaunch launch frames)) := by
  refine ⟨fits_record (fits_register h.fits), ?_, fun hf => (by cases hf),
    tailsClear_record (tailsClear_register h.tails)⟩
  exact (h.joined.register hopen).mono (fun _ hlaunch => by cases hlaunch) fun _ => isSettled_push

theorem Stack.restart {store : Store} {rest : List Frame} {code : Closure} {caller : Context}
    {scope : Option (List Nat)} {launched : List Nat}
    (h : Stack setup store.launches true frames)
    (hdrop : frames.dropWhile (!·.isActivation) = .activation code caller scope launched :: rest)
    (hsettled : store.settled scope = true) :
    Stack setup store.launches true
      (.activation code caller (setup.bodyScope code) launched :: rest) := by
  have hsuffix : .activation code caller scope launched :: rest <:+ frames :=
    hdrop ▸ List.dropWhile_suffix _
  have hrest : rest <:+ frames := (List.suffix_cons _ _).trans hsuffix
  have hjoined := h.joined.restart (h.clear rfl) hdrop
  refine ⟨?_, ⟨fun launch hlaunch => .inl ?_, hjoined.2⟩, fun _ => trivial,
    fun hf => (by cases hf), tailsClear_suffix h.tails hrest⟩
  · refine List.forall_mem_cons.mpr ⟨bodyScope_fits code, fun frame hframe => ?_⟩
    exact h.fits frame (hrest.subset hframe)
  · rcases hjoined.1 launch hlaunch with hdone | hpending | hscope
    · exact hdone
    · cases hpending
    · exact isSettled_of_settled hsettled hscope

end Stack

section Launches

variable {setup : Setup} {store store' : Store} {context context' : Context}

theorem bindAll_launches {names : List String} {values : List Value} {env env' : Env}
    (h : bindAll store env names values = (store', env')) : store'.launches = store.launches := by
  induction names generalizing store env values with
  | nil =>
    obtain ⟨rfl, -⟩ := Prod.mk.inj h
    rfl
  | cons name names ih =>
    have hrest := ih h
    exact hrest

theorem bindStatement_launches {declaration : VariableDeclaration} {value : Value}
    (h : bindStatement store context declaration value = (store', context')) :
    store'.launches = store.launches := by
  unfold bindStatement at h
  split at h <;> obtain ⟨rfl, -⟩ := Prod.mk.inj h <;> rfl

theorem reserve_launches {skipped : Expression}
    (h : reserve setup store context skipped = (store', context')) :
    store'.launches = store.launches := by
  unfold reserve at h
  generalize introduces skipped = items at h
  induction items generalizing store context with
  | nil =>
    obtain ⟨rfl, -⟩ := Prod.mk.inj h
    rfl
  | cons item items ih =>
    rw [List.foldl_cons] at h
    rw [ih h]
    cases item with
    | variableDeclaration v =>
      show (if _ then _ else _ : Store × Context).1.launches = _
      split <;> rfl
    | functionDeclaration | typeDeclaration | trapDeclaration => rfl

end Launches

section Steps

variable {setup : Setup} {store store' : Store} {context : Context} {frames : List Frame}
  {fiber fiber' : Fiber}

theorem Enters.stack {launches : List Bool} {tail tail' : Bool} {e : Expression}
    {frames' : List Frame} (h : Enters setup tail e frames tail' frames')
    (hs : Stack setup launches tail frames) : Stack setup launches tail' frames' := by
  cases h with
  | lowered hlowered =>
    have htail : tail = true := by
      unfold Setup.loweredInTail at hlowered
      split at hlowered <;> simp_all
    exact htail ▸ hs
  | forced => exact hs.push rfl (fun hf => by cases hf) (fun hf => by cases hf)
  | plain => exact hs.notTail

theorem Evaluates.joins {tail : Bool} {e : Expression}
    (h : Evaluates setup store context frames tail e store' fiber)
    (hs : Stack setup store.launches tail frames) : fiber.Joins setup store'.launches := by
  cases h with
  | literal | read | chosen | lambda => exact hs.notTail
  | tailBlock statements span htail hends =>
    exact hs.pushBlock rfl rfl fun _ => ⟨htail, rfl⟩
  | scopeBlock statements span hscope =>
    exact hs.pushBlock (by rw [hscope]; rfl) rfl fun hf => (by cases hf)
  | plainBlock statements span hscope =>
    exact hs.pushBlock (by rw [hscope]; rfl) rfl fun hf => (by cases hf)
  | ifThenElse | match_ => exact hs.push rfl (fun hf => by cases hf) id
  | logical => exact hs.push rfl (fun hf => by cases hf) (fun hf => by cases hf)
  | @operands e tail' hstrict htail =>
    exact ⟨hs.fits, hs.joined, fun ht => hs.clear (htail ht), hs.tails⟩

theorem Dispatches.joins {name : String} {nameSpan : Span} {arguments : List Expression}
    {memberCall : Bool} {values : List Value} {launches : List Bool}
    (h : Dispatches setup store context frames name nameSpan arguments memberCall values fiber)
    (hs : Stack setup launches false frames) : fiber.Joins setup launches := by
  cases h <;> exact hs

/-- The fiber is at work on a launching primitive. -/
def Fiber.launching (fiber : Fiber) : Bool :=
  match fiber.control with
  | .operate ⟨_, .deferred, _⟩ _ | .operate ⟨_, .serves _, _⟩ _ => true
  | _ => false

theorem Operates.joins {operation : Operation} {values : List Value}
    (h : Operates setup store context frames operation values store' fiber)
    (hopen : (⟨.operate operation values, context, frames⟩ : Fiber).launching = true →
      openScope frames = true)
    (hs : Stack setup store.launches false frames) : fiber.Joins setup store'.launches := by
  have hwithin : Stack setup store.launches false ((if operation.guarded then Frame.guard context
      else .builtin operation values) :: frames) := by
    cases operation.guarded with
    | true => exact hs.guard
    | false => exact hs.push rfl id (fun hf => by cases hf)
  obtain ⟨names, effect, guarded⟩ := operation
  cases h with
  | callback | method | function => exact hwithin
  | ends => exact hs
  | launches heffect =>
    obtain rfl : effect = .deferred := heffect
    exact hs.launch (hopen rfl)
  | serves heffect hready =>
    obtain rfl : effect = .serves _ := heffect
    exact hs.launch (hopen rfl)

theorem Delivers.joins {value : Value} {frame : Frame} {tail : Bool}
    (h : Delivers setup store context frames value frame store' fiber)
    (hs : Stack setup store.launches tail (frame :: frames)) : fiber.Joins setup store'.launches := by
  cases h with
  | pass hframe =>
    rcases hframe with ⟨rfl, -⟩ | rfl | ⟨tail, rfl⟩
    · exact hs.pop rfl
    · exact hs.pop rfl
    · exact (hs.pop rfl).notTail
  | forced | operands | statement | leaveArm | builtin | initialise => exact hs.pop rfl
  | takeThen => exact (hs.pop rfl).push rfl id (fun hf => by cases hf)
  | takeRight => exact (hs.pop rfl).push rfl id (fun hf => by cases hf)
  | takeElse tail then_ else_ hvalue hreserve =>
    rw [Fiber.Joins, reserve_launches hreserve]
    exact hs.pop rfl
  | leaveBranch skipped hreserve =>
    rw [Fiber.Joins, reserve_launches hreserve]
    exact hs.pop rfl
  | decided right hvalue hreserve =>
    rw [Fiber.Joins, reserve_launches hreserve]
    exact hs.pop rfl
  | takeArm harm hready hbind =>
    rw [Fiber.Joins, bindAll_launches hbind]
    exact (hs.pop rfl).push rfl id (fun hf => by cases hf)
  | bind declaration tail rest hbind =>
    rw [Fiber.Joins, bindStatement_launches hbind]
    exact hs.pop rfl
  | leaveBlock tail span visible hsettled => exact hs.popBlock hsettled
  | returns code caller launched hsettled =>
    exact ⟨(List.forall_mem_cons.mp hs.fits).2, hs.joined.2, fun hf => (by cases hf), hs.tails.2⟩
  | leaveGuard outer =>
    exact ⟨(List.forall_mem_cons.mp hs.fits).2, hs.joined, fun hf => (by cases hf), hs.tails.2⟩

theorem Moves.joins (h : Moves setup store fiber store' fiber')
    (hopen : fiber.launching = true → openScope fiber.frames = true)
    (hs : fiber.Joins setup store.launches) : fiber'.Joins setup store'.launches := by
  cases h with
  | eval henters hevaluates => exact hevaluates.joins (henters.stack hs)
  | operand => exact hs.push rfl (fun hf => by cases hf) id
  | tailCall | itemsEnd | itemOther | callComputed | construct | runType => exact hs
  | runEnd => exact hs.notTail
  | finished => exact hs
  | call hdispatch => exact hdispatch.joins hs
  | runExpression context frames tail e rest =>
    exact hs.push rfl (fun ht => (Bool.and_eq_true _ _ ▸ ht).1) id
  | runBinding => exact hs.push rfl (fun hf => by cases hf) id
  | itemBinding => exact hs.push rfl (fun hf => by cases hf) (fun hf => by cases hf)
  | runFunction frames tail f rest hdeclare =>
    obtain ⟨rfl, -⟩ := Prod.mk.inj hdeclare
    exact hs
  | @apply context frames code arguments store' env hbind =>
    rw [Fiber.Joins, bindAll_launches hbind]
    exact hs.enter code context
  | operate hoperates => exact hoperates.joins hopen hs
  | restart hdrop hsettled hbind =>
    rw [Fiber.Joins, bindAll_launches hbind]
    exact hs.restart hdrop hsettled
  | deliver hdelivers => exact hdelivers.joins hs

theorem Operates.launches_eq {operation : Operation} {values : List Value}
    (h : Operates setup store context frames operation values store' fiber) :
    store'.launches = store.launches ∨ store'.launches = store.launches ++ [false] := by
  cases h with
  | callback | method | function | ends => exact .inl rfl
  | launches | serves => exact .inr rfl

theorem Delivers.launches_eq {value : Value} {frame : Frame}
    (h : Delivers setup store context frames value frame store' fiber) :
    store'.launches = store.launches := by
  cases h with
  | takeElse tail then_ else_ hvalue hreserve => exact reserve_launches hreserve
  | leaveBranch skipped hreserve => exact reserve_launches hreserve
  | decided right hvalue hreserve => exact reserve_launches hreserve
  | takeArm harm hready hbind => exact bindAll_launches hbind
  | bind declaration tail rest hbind => exact bindStatement_launches hbind
  | _ => rfl

/-- What has settled stays settled. -/
theorem Moves.settled_mono (h : Moves setup store fiber store' fiber') (launch : Nat)
    (hsettled : isSettled store.launches launch) : isSettled store'.launches launch := by
  have hlaunches : store'.launches = store.launches ∨
      store'.launches = store.launches ++ [false] := by
    cases h with
    | eval henters hevaluates => cases hevaluates <;> exact .inl rfl
    | operate hoperates => exact hoperates.launches_eq
    | deliver hdelivers => exact .inl hdelivers.launches_eq
    | apply hbind => exact .inl (bindAll_launches hbind)
    | restart hdrop hsettled hbind => exact .inl (bindAll_launches hbind)
    | runFunction frames tail f rest hdeclare =>
      obtain ⟨rfl, -⟩ := Prod.mk.inj hdeclare
      exact .inl rfl
    | _ => exact .inl rfl
  rcases hlaunches with heq | heq
  · rw [heq]
    exact hsettled
  · rw [heq]
    exact isSettled_push hsettled

end Steps

/-! ### Every run -/

def State.Joins (setup : Setup) (state : State) : Prop :=
  ∀ fiber ∈ state.fibers, fiber.Joins setup state.store.launches

/-- Every fiber at work on a launching primitive is under a block that opens a scope for it. -/
def State.LaunchesPlaced (program : Program) (state : State) : Prop :=
  ∀ fiber ∈ state.fibers, fiber.launching = true → Opens program fiber.frames

theorem start_joins (setup : Setup) : setup.start.Joins setup := by
  intro fiber hfiber
  rw [List.mem_singleton.mp hfiber]
  exact .nil

theorem Steps.joins {setup : Setup} {state state' : State} (h : Steps setup state state')
    (hopen : ∀ fiber ∈ state.fibers, fiber.launching = true → openScope fiber.frames = true)
    (hstate : state.Joins setup) : state'.Joins setup := by
  have hspawn : ∀ (code : Closure) (arguments : List Value),
      (⟨state.store, state.fibers ++ [⟨.apply code arguments, ⟨[], []⟩, []⟩]⟩ : State).Joins
        setup := by
    intro code arguments fiber hfiber
    rcases List.mem_append.mp hfiber with hfiber | hfiber
    · exact hstate fiber hfiber
    · rw [List.mem_singleton.mp hfiber]
      exact .nil
  cases h with
  | @fiber index fiber fiber' store' hfiber hmoves =>
    have hmem := List.mem_of_getElem? hfiber
    intro other hother
    rcases List.mem_or_eq_of_mem_set hother with hother | rfl
    · exact (hstate other hother).later fun launch => hmoves.settled_mono launch
    · exact hmoves.joins (hopen fiber hmem) (hstate fiber hmem)
  | settle launch =>
    intro fiber hfiber
    refine (hstate fiber hfiber).later fun other hsettled => ?_
    unfold isSettled at hsettled ⊢
    obtain ⟨hlt, hdone⟩ := List.getElem?_eq_some_iff.mp hsettled
    show (state.store.launches.set launch true)[other]? = some true
    rw [List.getElem?_set]
    split
    · simp_all
    · exact hsettled
  | enter | handleTcp | handleHttp | trap => exact hspawn _ _
  | @abandon index fiber context frames hfiber hdrop =>
    have hstack := hstate fiber (List.mem_of_getElem? hfiber)
    have hsuffix : frames <:+ fiber.frames :=
      (List.suffix_cons _ _).trans (hdrop ▸ List.dropWhile_suffix _)
    intro other hother
    rcases List.mem_or_eq_of_mem_set hother with hother | rfl
    · exact hstate other hother
    · exact ⟨fun frame hframe => hstack.fits frame (hsuffix.subset hframe),
        hstack.joined.abandon hdrop, fun hf => (by cases hf), tailsClear_suffix hstack.tails hsuffix⟩

/-- **A launch happens with a scope of its activation open exactly when the activation is in a block
that is the innermost one around a recognised launch and opens its scope; and in a run whose launches
all happen so, an activation returns only after everything it launched has settled.** -/
theorem launch_joined {setup : Setup} {answers : CheckerAnswers} {fuel : Nat} {state : State}
    {fiber : Fiber}
    (hanalysis : analyzeLoop answers setup.program fuel [] = some (.ok setup.info))
    (hrun : Run (step setup) (fun _ s => s.LaunchesPlaced setup.program) setup.start state)
    (hfiber : fiber ∈ state.fibers) :
    (fiber.launching = true →
      (openScope fiber.frames = true ↔ Opens setup.program fiber.frames)) ∧
    ∀ value context code caller scope launched frames,
      fiber = ⟨.deliver value, context, .activation code caller scope launched :: frames⟩ →
      state.store.settled scope = true →
      ∀ launch ∈ launched, isSettled state.store.launches launch := by
  have hscopes := mem_launchScopes_iff hanalysis
  have hjoins : state.Joins setup := by
    refine hrun.invariant (start_joins setup) fun action s s' hs hplaced hstep => ?_
    refine (steps_of_step hstep).joins (fun other hother hlaunching => ?_) hs
    exact (openScope_iff hscopes (hs other hother).fits).mpr (hplaced other hother hlaunching)
  have hstack := hjoins fiber hfiber
  refine ⟨fun _ => openScope_iff hscopes hstack.fits, ?_⟩
  rintro value context code caller scope launched frames rfl hsettled launch hlaunch
  rcases hstack.joined.1 launch hlaunch with hdone | hpending | hscope
  · exact hdone
  · cases hpending
  · exact isSettled_of_settled hsettled hscope

namespace Launching

def at_ (start stop : Nat) : Span := ⟨start, stop, 0⟩

def readStdin (start : Nat) : Expression :=
  .call (.identifier "core.io.@readStdin" (at_ start (start + 13))) [] false (at_ start (start + 15))

/-- `http.@serve("127.0.0.1:0", request => http.Response { raw = "" },
http.ServerOptions { maxBodySize = 1024, idleTimeout = 2 })` -/
def serve : Expression :=
  .call (.identifier "core.http.@serve" (at_ 26 37))
    [.string "127.0.0.1:0" (at_ 38 51),
     .lambda [⟨"request", none, at_ 53 60⟩] none
      (.constructor "core.http.Response" [("raw", .string "" (at_ 86 88))] (at_ 64 90)) (at_ 53 90),
     .constructor "core.http.ServerOptions"
      [("maxBodySize", .number 1024 (at_ 129 133)), ("idleTimeout", .number 2 (at_ 149 150))]
      (at_ 92 152)] false (at_ 26 153)

/-- `^ = () -> Num => < x = c  0 >`, for the call `c`. -/
def entry (call : Expression) : FunctionDeclaration :=
  ⟨"^", [], some .num, none,
    .block
      [.item (.variableDeclaration ⟨false, "x", none, call, false, false, at_ 19 153⟩),
       .expression (.number 0 (at_ 155 156))] (at_ 17 158), false, false, at_ 0 158⟩

def answers : CheckerAnswers := ⟨[], [], Char.isUpper⟩

def setup (call : Expression) (info : DeferInfo) : Setup where
  program := ⟨[.functionDeclaration (entry call)]⟩
  info := info
  order := Expression.operands
  order_operands _ _ h := h
  evaluatesBoth _ := false
  loops _ := false
  backEdges _ := false

/-- `^` starts a server with options. -/
def serving : Setup := setup serve ⟨[], []⟩

/-- `^` reads a line. -/
def reading : Setup := setup (readStdin 26) ⟨[], [at_ 17 158]⟩

/-- The initialisers, the host's call of `^`, and its body up to the call. -/
def started : List Action :=
  [.fiber 0 .none, .fiber 0 .none, .enter 0 []] ++ List.replicate 4 (.fiber 1 .none)

/-- The arguments are evaluated, and `^` is about to start its server. -/
def launchingServer : State :=
  (perform serving (started ++ List.replicate 15 (.fiber 1 .none) ++
    [.fiber 1 (.result (.data 0)), .fiber 1 .none, .fiber 1 .builtin]) serving.start).get rfl

def noneLaunching (_ : Action) (state : State) : Bool :=
  state.fibers.all (!·.launching)

/-- `^` is about to start the read. -/
def launchingRead : State :=
  (follow (step reading) noneLaunching (started ++ [.fiber 1 .builtin]) reading.start).get rfl

theorem run_launchingRead : Run (step reading) (fun _ s => s.LaunchesPlaced reading.program)
    reading.start launchingRead := by
  refine .of_follow (fun action state hcheck fiber hfiber hlaunching => ?_) .start
    (Option.some_get rfl).symm
  have hnone := List.all_eq_true.mp hcheck fiber hfiber
  rw [hlaunching] at hnone
  cases hnone

end Launching

/-- A launch in a block of its own function is placed, so its scope is open. -/
theorem launch_in_block_joined :
    openScope (Launching.launchingRead.fibers.getLast (by decide)).frames = true ↔
      Opens Launching.reading.program (Launching.launchingRead.fibers.getLast (by decide)).frames :=
  (@launch_joined Launching.reading Launching.answers 1 Launching.launchingRead _ rfl
    Launching.run_launchingRead (List.getLast_mem _)).1 rfl

/-- A server started with options has no scope of its activation to register with. -/
theorem serve_with_options_dropped :
    analyzeLoop Launching.answers Launching.serving.program 1 [] = some (.ok Launching.serving.info) ∧
      ¬ ∀ state, Launching.serving.Reaches state → ∀ fiber ∈ state.fibers,
        fiber.launching = true → openScope fiber.frames = true := by
  refine ⟨rfl, fun h => ?_⟩
  have hopen := h Launching.launchingServer (reaches_of_perform .start (Option.some_get rfl).symm)
    (Launching.launchingServer.fibers.getLast (by decide)) (List.getLast_mem _) rfl
  cases hopen

end Quilon
