import Quilon.Ast.Nodes

/-!
# Captures of a closure

`src/ast/captures.rs`: the names a lambda or nested function captures, in the order of their first
occurrence.  `local_` holds the names bound inside so far, `outer` those of the enclosing function.
A block, an arm or a nested closure works on a copy of the local names, so only the statements of a
block hand theirs on.
-/

namespace Quilon

/-- `note`: `out` is both the order and the set of the names seen. -/
def note (name : String) (local_ outer out : List String) : List String :=
  if !local_.contains name && outer.contains name && !out.contains name then out ++ [name] else out

section Collect

variable (outer : List String)

mutual

/-- The names a pattern binds. -/
def bindPattern : Pattern → List String → List String
  | .identifier name _, bound => name :: bound
  | .constructor _ arguments _, bound => bindPatterns arguments bound
  | .number _ _, bound | .text _ _, bound | .wildcard _, bound => bound

def bindPatterns : List Pattern → List String → List String
  | [], bound => bound
  | pattern :: rest, bound => bindPatterns rest (bindPattern pattern bound)

end

/-- What a binding statement does to the local names once its value is collected: `:=` to an outer
name that is not shadowed writes the captured cell. -/
def collectBinding (isMutable : Bool) (name : String) (local_ out : List String) :
    List String × List String :=
  if isMutable && !local_.contains name && outer.contains name then
    (local_, note name local_ outer out)
  else (name :: local_, out)

mutual

def collect : Expression → List String → List String → List String
  | .identifier name _, local_, out => note name local_ outer out
  | .number _ _, _, out | .string _ _, _, out | .bool _ _, _, out | .unit _, _, out => out
  | .interpolation parts _, local_, out => collectParts parts local_ out
  | .binaryOperator left _ right _, local_, out | .range left right _, local_, out
  | .fieldAssign left right _, local_, out | .indexAssign left right _, local_, out
  | .index left right _, local_, out => collect right local_ (collect left local_ out)
  | .unaryOperator _ e _, local_, out | .fieldAccess e _ _, local_, out
  | .spread e _, local_, out => collect e local_ out
  | .call function arguments _ _, local_, out =>
    collectAll arguments local_ (collect function local_ out)
  | .lambda parameters _ body _, local_, out =>
    collect body (parameters.map (·.name) ++ local_) out
  | .block statements _, local_, out => collectStatements statements local_ out
  | .ifThenElse condition then_ else_ _, local_, out =>
    collect else_ local_ (collect then_ local_ (collect condition local_ out))
  | .match_ e arms _, local_, out => collectArms arms local_ (collect e local_ out)
  | .array elements _, local_, out | .setLiteral elements _, local_, out =>
    collectAll elements local_ out
  | .mapLiteral entries _, local_, out => collectEntries entries local_ out
  | .record fields _, local_, out | .constructor _ fields _, local_, out =>
    collectFields fields local_ out

def collectAll : List Expression → List String → List String → List String
  | [], _, out => out
  | e :: rest, local_, out => collectAll rest local_ (collect e local_ out)

def collectParts : List InterpolationPart → List String → List String → List String
  | [], _, out => out
  | .literal _ :: rest, local_, out => collectParts rest local_ out
  | .hole e :: rest, local_, out => collectParts rest local_ (collect e local_ out)

def collectEntries : List (Expression × Expression) → List String → List String → List String
  | [], _, out => out
  | (key, value) :: rest, local_, out =>
    collectEntries rest local_ (collect value local_ (collect key local_ out))

def collectFields : List (String × Expression) → List String → List String → List String
  | [], _, out => out
  | (_, value) :: rest, local_, out => collectFields rest local_ (collect value local_ out)

def collectArms : List MatchArm → List String → List String → List String
  | [], _, out => out
  | ⟨pattern, body, _⟩ :: rest, local_, out =>
    collectArms rest local_ (collect body (bindPattern pattern local_) out)

def collectStatements : List Statement → List String → List String → List String
  | [], _, out => out
  | .expression e :: rest, local_, out => collectStatements rest local_ (collect e local_ out)
  | .item (.variableDeclaration ⟨isMutable, name, _, value, _, _, _⟩) :: rest, local_, out =>
    let bound := collectBinding outer isMutable name local_ (collect value local_ out)
    collectStatements rest bound.1 bound.2
  | .item (.functionDeclaration ⟨name, parameters, _, _, body, _, _, _⟩) :: rest, local_, out =>
    collectStatements rest (name :: local_)
      (collect body (parameters.map (·.name) ++ local_) out)
  | .item (.typeDeclaration _) :: rest, local_, out
  | .item (.trapDeclaration _) :: rest, local_, out => collectStatements rest local_ out

end

end Collect

/-- The ordered, de-duplicated names a lambda with these parameters captures. -/
def lambdaFreeIdents (parameters : List String) (body : Expression) (outer : List String) :
    List String :=
  collect outer body parameters []

end Quilon
