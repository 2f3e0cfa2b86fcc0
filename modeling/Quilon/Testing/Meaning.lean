import Quilon.Testing.Selection

/-!
# What a test program does

The behaviour of the entry point of a test file, statement by statement.  A call of `describe` or `it`
is taken apart where it stands as a statement, as the body of a suite or as the only expression of one;
what everything else means is a parameter (`Meaning`), so that nothing is assumed of it: it may call the
harness too, as a loop, a callback or a helper does.
-/

namespace Quilon.Testing

/-- What the parts of a program mean that are no test calls in place.  `ε` is what a scope binds; values
are part of the state. -/
structure Meaning (σ ε : Type) where
  /-- a statement, with the effects of its expressions -/
  statement : ε → Statement → Behaviour σ
  /-- the scope behind a declaration -/
  extend : ε → Item → Harness → σ → ε
  /-- the block of this span begins or ends -/
  enterBlock : Span → Behaviour σ
  leaveBlock : Span → Behaviour σ
  /-- an argument of a test call is evaluated -/
  argument : ε → Expression → Behaviour σ
  /-- the text an evaluated name is -/
  text : ε → Expression → Harness → σ → String
  /-- the function an evaluated body is gets called -/
  call : ε → Expression → Behaviour σ
  /-- whether the checker's type of the expression is `$` -/
  isUnit : Expression → Bool

namespace Meaning

variable {σ ε : Type} (meaning : Meaning σ ε)

/-- Evaluating the body argument: a function literal has no effect. -/
def denoteArgument (scope : ε) : Expression → Behaviour σ
  | .lambda _ _ _ _ => .done
  | expression => meaning.argument scope expression

mutual

def denoteStatements : List Statement → ε → Behaviour σ
  | [], _ => .done
  | .expression expression :: rest, scope =>
    .seq (denoteExpression expression scope) (denoteStatements rest scope)
  | .item item :: rest, scope =>
    .seq (meaning.statement scope (.item item))
      (.step (fun _ world => world)
        fun harness world => denoteStatements rest (meaning.extend scope item harness world))

/-- An expression that stands as a statement, or as the whole body of a function literal. -/
def denoteExpression : Expression → ε → Behaviour σ
  | .call (.identifier name nameSpan) [.string value valueSpan, body] memberCall span, scope =>
    match markerKind name with
    | none =>
      meaning.statement scope (.expression
        (.call (.identifier name nameSpan) [.string value valueSpan, body] memberCall span))
    | some kind =>
      .seq (meaning.denoteArgument scope body) (.call kind span value (denoteBody body scope))
  | .call (.identifier name nameSpan) [computed, body] memberCall span, scope =>
    match markerKind name with
    | none =>
      meaning.statement scope
        (.expression (.call (.identifier name nameSpan) [computed, body] memberCall span))
    | some kind =>
      -- the name is what the interpolation or the expression comes to
      .seq (meaning.argument scope computed)
        (.step (fun _ world => world) fun harness world =>
          .seq (meaning.denoteArgument scope body)
            (.call kind span (meaning.text scope computed harness world) (denoteBody body scope)))
  | expression, scope => meaning.statement scope (.expression expression)

/-- Calling the body of a test call. -/
def denoteBody : Expression → ε → Behaviour σ
  | .lambda _ _ (.block statements span) _, scope =>
    .seq (meaning.enterBlock span) (.seq (denoteStatements statements scope) (meaning.leaveBlock span))
  | .lambda _ _ body _, scope => denoteExpression body scope
  | expression, scope => meaning.call scope expression

end

/-! ### What is compiled -/

/-- Whether the value of a block with these statements is a `$`. -/
def endsInUnit (statements : List Statement) : Bool :=
  match statements.getLast? with
  | some (.expression (.call (.identifier name nameSpan) arguments memberCall span)) =>
    (markerKind name).isSome ||
      meaning.isUnit (.call (.identifier name nameSpan) arguments memberCall span)
  | some (.expression expression) => meaning.isUnit expression
  | some (.item _) | none => true

mutual

/-- Whether the functions of the suites return what their type says. -/
def builds : List Statement → Bool
  | [] => true
  | .expression expression :: rest => buildsCall expression && builds rest
  | .item _ :: rest => builds rest

def buildsCall : Expression → Bool
  | .call (.identifier name _) [.string _ _, .lambda _ _ body _] _ _ =>
    match markerKind name with
    | some .suite => buildsBody body
    | _ => true
  | _ => true

def buildsBody : Expression → Bool
  | .block statements _ => meaning.endsInUnit statements && builds statements
  | _ => true

end

/-- The filtered run: the whole program under a selection. -/
def runFiltered (scope : ε) (only : List String) (entry : List Statement) (state : RunState σ) :
    Ending × RunState σ :=
  run only (meaning.denoteStatements entry scope) state

/-- The binary of a `--binary` build, run plainly; `none` where the pruned program does not compile. -/
def runBinary (scope : ε) (only : List String) (entry : List Statement) (state : RunState σ) :
    Option (Ending × RunState σ) :=
  if meaning.builds (pruneUnselected only entry) then
    some (run [] (meaning.denoteStatements (pruneUnselected only entry) scope) state)
  else none

end Meaning

end Quilon.Testing
